import Ucore.Mm.Correctness.Cow
import Ucore.Mm.Correctness.MmMap

/-!
# `Mm.Correctness.CowFork` — `dup_mmap` and `do_pgfault`, in terms of address spaces

The effect of both on the page table entries of all address spaces. After `dup_mmap`, whether it has come to its end or
not, the pages that the target maps for the first time are those that have been shared.
-/

namespace Ucore

open PageMem

/-- The page table entry of page `n` in the address space `m` -/
def Vm.pte (s : Vm) (m n : Nat) : Pte := s.mem.leaf (s.mm m).pgdir n

/-- Areas may have been added. -/
structure Vm.Wider (M : Finset Nat) (s s' : Vm) : Prop where
  pgdir : ∀ m ∈ M, (s'.mm m).pgdir = (s.mm m).pgdir
  areas : ∀ m ∈ M, ∀ v ∈ (s.mm m).mmapList, v ∈ (s'.mm m).mmapList

variable {s s' s₁ s₂ : Vm} {M : Finset Nat} {L : Nat → Prop} {m m' dst src n addr : Nat} {v w : Vma} {x : Mm} {mem : PageMem}

theorem Vm.Wider.refl (s : Vm) : Vm.Wider M s s := ⟨fun _ _ => rfl, fun _ _ _ hv => hv⟩

theorem Vm.Wider.trans (h : Vm.Wider M s s₁) (h' : Vm.Wider M s₁ s₂) : Vm.Wider M s s₂ where
  pgdir m hm := (h'.pgdir m hm).trans (h.pgdir m hm)
  areas m hm v hv := h'.areas m hm v (h.areas m hm v hv)

/-- Only the pages change. -/
theorem Vm.Wider.setMem (s : Vm) (mem : PageMem) : Vm.Wider M s (s.setMem mem) := ⟨fun _ _ => rfl, fun _ _ _ hv => hv⟩

/-- Only areas change. -/
theorem Vm.pte_congr (hmem : s'.mem = s.mem) (hpgdir : (s'.mm m).pgdir = (s.mm m).pgdir) : s'.pte m n = s.pte m n := by
  rw [Vm.pte, Vm.pte, hmem, hpgdir]

/-- Pages outside of all areas are not mapped. -/
theorem Vm.Inv.not_mapped (h : s.Inv M L) (hm : m ∈ M) (hn : n < userPages) (hout : ∀ w ∈ (s.mm m).mmapList, ¬ w.Has n) :
    ¬ (s.pte m n).v = true := by
  intro hv
  have hmaps : s.mem.maps (s.mm m).pgdir n ≠ none := by
    rw [maps_eq_some.mpr ⟨hv, rfl⟩]
    exact Option.some_ne_none _
  obtain ⟨w, hw, hwn⟩ := h.inside m hm n hn hmaps
  exact hout w hw hwn

/-! ## Areas -/

/-- One address space may have more areas. -/
theorem Vm.Wider.of_one (hothers : ∀ m', m' ≠ m → s'.mm m' = s.mm m') (hpgdir : (s'.mm m).pgdir = (s.mm m).pgdir)
    (hareas : ∀ v ∈ (s.mm m).mmapList, v ∈ (s'.mm m).mmapList) : Vm.Wider M s s' := by
  constructor
  · intro m' _
    by_cases hm : m' = m
    · rw [hm, hpgdir]
    · rw [hothers m' hm]
  · intro m' _ v hv
    by_cases hm : m' = m
    · rw [hm] at hv ⊢
      exact hareas v hv
    · rw [hothers m' hm]
      exact hv

theorem Vm.Wider.setMm {x : Mm} (hpgdir : x.pgdir = (s.mm m).pgdir) (hareas : ∀ v ∈ (s.mm m).mmapList, v ∈ x.mmapList) :
    Vm.Wider M s (s.setMm m x) := by
  have hself : (s.setMm m x).mm m = x := Function.update_self ..
  refine .of_one (fun m' hm => Function.update_of_ne hm _ _) ?_ ?_
  · rw [hself, hpgdir]
  · rw [hself]
    exact hareas

theorem Vm.SameAreas.wider (h : s.SameAreas s' m) (M : Finset Nat) : Vm.Wider M s s' :=
  .of_one h.others h.pgdir fun _ hv => h.list.symm ▸ hv

namespace Vm.MoreAreas

variable {start stop : Nat} {flags : VmFlags} (h : s.MoreAreas s' m start stop flags)

include h

theorem area : ∃ v ∈ (s'.mm m).mmapList, v.Has = InRange start stop ∧ v.vmFlags = flags := by
  obtain ⟨v, l₁, l₂, rfl, rfl, hflags, -, hnew⟩ := h.list
  exact ⟨v, by rw [hnew]; exact List.mem_append_right l₁ List.mem_cons_self, rfl, hflags⟩

theorem wider (M : Finset Nat) : Vm.Wider M s s' := by
  obtain ⟨v, l₁, l₂, -, -, -, hold, hnew⟩ := h.list
  refine .of_one h.others h.pgdir fun w hw => ?_
  rw [hold, List.mem_append] at hw
  rw [hnew, List.mem_append, List.mem_cons]
  exact hw.imp id .inr

theorem pte (m' n : Nat) : s'.pte m' n = s.pte m' n := by
  apply Vm.pte_congr h.mem
  by_cases hm : m' = m
  · rw [hm, h.pgdir]
  · rw [h.others m' hm]

/-- The pages of the new area are not mapped. -/
theorem not_mapped (hinv : s.Inv M L) (hm : m ∈ M) (hfree : (s.mm m).Free start stop) (hn : n < userPages)
    (hin : InRange start stop n) : ¬ (s'.pte m n).v = true := by
  rw [h.pte]
  apply hinv.not_mapped hm hn
  intro w hw hwn
  have hover : w.Overlaps start stop := ⟨Nat.lt_of_le_of_lt hin.1 hwn.2, Nat.lt_of_le_of_lt hwn.1 hin.2⟩
  exact hfree.2 w hw hover

end Vm.MoreAreas

namespace Cow

/-! ## `dup_mmap` -/

/-- Page `n` was not mapped before, and is now. -/
def Fresh (s s' : Vm) (m n : Nat) : Prop := ¬ (s.pte m n).v = true ∧ (s'.pte m n).v = true

/-- **The effect of `dup_mmap`.** -/
structure Forked (M : Finset Nat) (L : Nat → Prop) (dst src : Nat) (s s' : Vm) : Prop where
  inv : s'.Inv M L
  wider : Vm.Wider M s s'
  srcAreas : (s'.mm src).mmapList = (s.mm src).mmapList
  shared : ∀ n, n < userPages → Fresh s s' dst n → (s.pte src n).v = true ∧ s'.pte dst n = readOnly (s.pte src n) ∧
    s'.pte src n = readOnly (s.pte src n) ∧
    ∃ v ∈ (s.mm src).mmapList, v.Has n ∧ ∃ v' ∈ (s'.mm dst).mmapList, v'.Has n ∧ v'.vmFlags = v.vmFlags
  same : ∀ m ∈ M, ∀ n, n < userPages → ¬ ((m = dst ∨ m = src) ∧ Fresh s s' dst n) → s'.pte m n = s.pte m n

namespace Forked

/-- No page has changed. -/
theorem of_areas (h : s'.Inv M L) (hmem : s'.mem = s.mem) (hw : Vm.Wider M s s')
    (hsrc : (s'.mm src).mmapList = (s.mm src).mmapList) (hdst : dst ∈ M) : Forked M L dst src s s' where
  inv := h
  wider := hw
  srcAreas := hsrc
  shared n _ hfresh := by
    rw [Fresh, Vm.pte_congr hmem (hw.pgdir dst hdst)] at hfresh
    exact absurd hfresh.2 hfresh.1
  same m hm n _ _ := Vm.pte_congr hmem (hw.pgdir m hm)

theorem refl (h : s.Inv M L) (hdst : dst ∈ M) : Forked M L dst src s s := of_areas h rfl (.refl s) rfl hdst

theorem trans (hdst : dst ∈ M) (hsrc : src ∈ M) (h : Forked M L dst src s s₁) (h' : Forked M L dst src s₁ s₂) :
    Forked M L dst src s s₂ where
  inv := h'.inv
  wider := h.wider.trans h'.wider
  srcAreas := h'.srcAreas.trans h.srcAreas
  shared := by
    intro n hn hfresh
    by_cases h₁ : Fresh s s₁ dst n
    · -- shared in the first part, and left alone in the second
      have hold : ¬ Fresh s₁ s₂ dst n := fun hcon => hcon.1 h₁.2
      obtain ⟨hv, hd, hs, v, hmem, hhas, v', hmem', hhas', hflags⟩ := h.shared n hn h₁
      rw [h'.same dst hdst n hn fun hcon => hold hcon.2, h'.same src hsrc n hn fun hcon => hold hcon.2]
      exact ⟨hv, hd, hs, v, hmem, hhas, v', h'.wider.areas dst hdst v' hmem', hhas', hflags⟩
    · have hd := h.same dst hdst n hn fun hcon => h₁ hcon.2
      have hs := h.same src hsrc n hn fun hcon => h₁ hcon.2
      have h₂ : Fresh s₁ s₂ dst n := ⟨by rw [hd]; exact hfresh.1, hfresh.2⟩
      have hshared := h'.shared n hn h₂
      rw [hs, h.srcAreas] at hshared
      exact hshared
  same := by
    intro m hm n hn hno
    by_cases hdir : m = dst ∨ m = src
    · have h₂ : ¬ Fresh s₁ s₂ dst n := by
        intro hfresh
        by_cases h₁ : Fresh s s₁ dst n
        · exact hfresh.1 h₁.2
        · rw [Fresh, h.same dst hdst n hn fun hcon => h₁ hcon.2] at hfresh
          exact hno ⟨hdir, hfresh⟩
      have h₁ : ¬ Fresh s s₁ dst n := by
        intro hfresh
        have hkeep := h'.same dst hdst n hn fun hcon => h₂ hcon.2
        exact hno ⟨hdir, hfresh.1, by rw [hkeep]; exact hfresh.2⟩
      rw [h'.same m hm n hn fun hcon => h₂ hcon.2, h.same m hm n hn fun hcon => h₁ hcon.2]
    · rw [h'.same m hm n hn fun hcon => hdir hcon.1, h.same m hm n hn fun hcon => hdir hcon.1]

end Forked

/-- The entries after `copy_range` of an area of `src`, into a new area of `dst`. -/
theorem Forked.of_shared (h : s.Inv M L) (hdst : dst ∈ M) (hsrc : src ∈ M) (hv : v ∈ (s.mm src).mmapList)
    (hw : w ∈ (s.mm dst).mmapList) (hhas : w.Has = v.Has) (hflags : w.vmFlags = v.vmFlags)
    (hnew : ∀ n, n < userPages → v.Has n → ¬ (s.pte dst n).v = true)
    (hshared : Shared (s.dirs M) L (s.mm dst).pgdir (s.mm src).pgdir v.Has s.mem mem) :
    Forked M L dst src s (s.setMem mem) := by
  have hpd : (s.mm dst).pgdir ∈ s.dirs M := Vm.mem_dirs hdst
  have hps : (s.mm src).pgdir ∈ s.dirs M := Vm.mem_dirs hsrc
  have hdirs : ∀ m ∈ M, (s.mm m).pgdir = (s.mm dst).pgdir ∨ (s.mm m).pgdir = (s.mm src).pgdir → m = dst ∨ m = src := by
    rintro m hm (heq | heq)
    · exact .inl (h.inj m hm dst hdst heq)
    · exact .inr (h.inj m hm src hsrc heq)
  -- the pages that are mapped now are those of the area that the source maps
  have hfresh : ∀ n, n < userPages → (Fresh s (s.setMem mem) dst n ↔ v.Has n ∧ (s.pte src n).v = true) := by
    intro n hn
    constructor
    · rintro ⟨hold, hnow⟩
      by_contra hno
      have hsame : mem.leaf (s.mm dst).pgdir n = s.mem.leaf (s.mm dst).pgdir n := hshared.same _ hpd n hn fun hcon => hno hcon.2
      have hnow' : (mem.leaf (s.mm dst).pgdir n).v = true := hnow
      rw [hsame] at hnow'
      exact hold hnow'
    · rintro ⟨hin, hvalid⟩
      have hnow : mem.leaf (s.mm dst).pgdir n = readOnly (s.pte src n) := hshared.shared n hn hin hvalid _ hpd (.inl rfl)
      refine ⟨hnew n hn hin, ?_⟩
      show (mem.leaf (s.mm dst).pgdir n).v = true
      rw [hnow]
      exact hvalid
  have hinv : (s.setMem mem).Inv M L := by
    refine h.remem hshared.sound fun m hm n hn hmaps => ?_
    by_cases hin : ((s.mm m).pgdir = (s.mm dst).pgdir ∨ (s.mm m).pgdir = (s.mm src).pgdir) ∧ v.Has n ∧ (s.pte src n).v = true
    · right
      rcases hdirs m hm hin.1 with rfl | rfl
      · exact ⟨w, hw, hhas ▸ hin.2.1⟩
      · exact ⟨v, hv, hin.2.1⟩
    · left
      rw [maps_of_leaf (hshared.same _ (Vm.mem_dirs hm) n hn hin)] at hmaps
      exact hmaps
  refine ⟨hinv, .setMem s mem, rfl, ?_, ?_⟩
  · intro n hn hf
    obtain ⟨hin, hvalid⟩ := (hfresh n hn).mp hf
    refine ⟨hvalid, hshared.shared n hn hin hvalid _ hpd (.inl rfl), hshared.shared n hn hin hvalid _ hps (.inr rfl), ?_⟩
    exact ⟨v, hv, hin, w, hw, hhas ▸ hin, hflags⟩
  · intro m hm n hn hno
    refine hshared.same _ (Vm.mem_dirs hm) n hn fun hcon => hno ⟨hdirs m hm hcon.1, (hfresh n hn).mpr hcon.2⟩

/-- **The loop of `dup_mmap`**, by induction on the areas that are left. -/
theorem dupVmas_meets (hdst : dst ∈ M) (hsrc : src ∈ M) (hne : dst ≠ src) (vs : List Vma) : ∀ {s : Vm}, s.Inv M L →
    (∀ v ∈ vs, v ∈ (s.mm src).mmapList) →
    (dupVmas dst (s.mm src).pgdir vs s).Meets (fun _ s' => Forked M L dst src s s') (fun _ s' => Forked M L dst src s s')
      fun _ => True := by
  induction vs with
  | nil => exact fun h _ => .refl h hdst
  | cons v vs ih =>
    intro s h hvs
    have hv : v ∈ (s.mm src).mmapList := hvs v List.mem_cons_self
    have hok : v.Ok := (h.wf src hsrc).ok v hv
    rw [dupVmas]
    rcases vmaCreate_cases v.vmStart v.vmEnd v.vmFlags s with hc | ⟨p, _, hc⟩
    · rw [Proc.bind_ok hc]
      exact .of_areas h.ktick rfl ⟨fun _ _ => rfl, fun _ _ _ hw => hw⟩ rfl hdst
    · rw [Proc.bind_ok hc]
      refine ((insertVmaStruct_meets dst _ _).imp (fun _ _ hh => hh) (fun _ _ hh => hh.elim) fun _ _ => trivial).bind ?_
      rintro _ s₁ ⟨hs₁, hfits⟩
      -- the address spaces with the new area
      have htaken : s.SameAreas (s.ktake p) dst := ⟨rfl, fun _ _ => rfl, rfl, rfl, rfl, rfl, (h.wf dst hdst).toSorted⟩
      have hfree : (s.mm dst).Free v.vmStart v.vmEnd := ⟨hok.2.2, ((h.wf dst hdst).toSorted.fits_iff hok.2.2.2.1).mp hfits⟩
      have hmore : s.MoreAreas s₁ dst v.vmStart v.vmEnd v.vmFlags := hs₁ ▸ (htaken.insert hfree p v.vmFlags).2
      have hinv₁ : s₁.Inv M L := hs₁ ▸ (h.ktake p).addVma dst hok hfits
      have hother : s₁.mm src = s.mm src := hmore.others src hne.symm
      have hforked₁ : Forked M L dst src s s₁ := .of_areas hinv₁ hmore.mem (hmore.wider M) (by rw [hother]) hdst
      obtain ⟨w, hw, hhas, hflags⟩ := hmore.area
      have hv₁ : v ∈ (s₁.mm src).mmapList := hother ▸ hv
      have hnew : ∀ n, n < userPages → v.Has n → ¬ (s₁.pte dst n).v = true :=
        fun n hn hin => hmore.not_mapped h hdst hfree hn hin
      -- its pages
      rw [Proc.get_bind, ← hother]
      have hcopy := inMem_meets (@copyRange_meets s₁.mem (s₁.dirs M) L (s₁.mm dst).pgdir (s₁.mm src).pgdir v.vmStart v.vmEnd
        hinv₁.sound (Vm.mem_dirs hdst) (Vm.mem_dirs hsrc))
      cases hrun : inMem (copyRange (s₁.mm dst).pgdir (s₁.mm src).pgdir v.vmStart v.vmEnd) s₁ with
      | ok u s₂ =>
        rw [Proc.bind_ok (Proc.attempt_ok hrun)]
        obtain ⟨mem, rfl, hshared⟩ := hcopy.of_ok hrun
        have hforked := hforked₁.trans hdst hsrc (.of_shared hinv₁ hdst hsrc hv₁ hw hhas hflags hnew hshared)
        have hrest : ∀ u ∈ vs, u ∈ ((s₁.setMem mem).mm src).mmapList := by
          intro u hu
          rw [hforked.srcAreas]
          exact hvs u (List.mem_cons_of_mem v hu)
        exact (ih hforked.inv hrest).imp (fun _ _ => hforked.trans hdst hsrc) (fun _ _ => hforked.trans hdst hsrc) fun _ h => h
      | err e s₂ =>
        obtain ⟨_, _, hfalse⟩ := hcopy.of_err hrun
        exact hfalse.elim
      | panic q =>
        rw [Proc.bind_panic (Proc.attempt_panic hrun)]
        trivial

/-- **`dup_mmap`.** -/
theorem dupMmap_meets (h : s.Inv M L) (hdst : dst ∈ M) (hsrc : src ∈ M) (hne : dst ≠ src) :
    (dupMmap dst src s).Meets (fun _ s' => Forked M L dst src s s') (fun _ s' => Forked M L dst src s s') fun _ => True := by
  rw [dupMmap, Proc.get_bind]
  exact dupVmas_meets hdst hsrc hne _ h fun v hv => List.mem_reverse.mp hv

/-! ## `do_pgfault` -/

/-- **The effect of `do_pgfault`**: it fails, or the entry of the page is written with the permissions for its area. -/
structure PageFault (M : Finset Nat) (L : Nat → Prop) (m addr : Nat) (code : Int) (s s' : Vm) : Prop where
  inv : s'.Inv M L
  wider : Vm.Wider M s s'
  same : ∀ m' ∈ M, ∀ n, n < userPages → ¬ (m' = m ∧ n = addr / pgsize) → s'.pte m' n = s.pte m' n
  entry : code ≠ 0 ∧ s'.pte m (addr / pgsize) = s.pte m (addr / pgsize) ∨ code = 0 ∧ ∃ v ∈ (s.mm m).mmapList, v.Contains addr ∧
    ∃ p, s'.pte m (addr / pgsize) = pteCreate p (faultPerm (s.pte m (addr / pgsize)) v.vmFlags)

/-- **`do_pgfault`** in any state. -/
theorem doPgfault_meets (h : s.Inv M L) (hm : m ∈ M) (errorCode addr : Nat) :
    (doPgfault m errorCode addr s).Meets (fun code s' => PageFault M L m addr code s s') (fun _ _ => False) fun _ => False := by
  obtain ⟨hlist, hpgdir, -⟩ := (s.mm m).found_same addr
  have hself : (s.setMm m ((s.mm m).found addr)).mm m = (s.mm m).found addr := Function.update_self ..
  have hinv := h.found m addr
  have hsame : s.SameAreas (s.setMm m ((s.mm m).found addr)) m := .found (h.wf m hm).toSorted addr
  generalize hs₁ : s.setMm m ((s.mm m).found addr) = s₁ at hself hinv hsame
  have hwider := hsame.wider M
  have hpte : ∀ m' ∈ M, ∀ n, s₁.pte m' n = s.pte m' n := fun m' hm' n => Vm.pte_congr hsame.mem (hwider.pgdir m' hm')
  rw [doPgfault, Proc.bind_ok (findVma_run m addr s), hs₁]
  cases hfind : (s.mm m).findVma addr with
  | none => exact ⟨hinv, hwider, fun m' hm' n _ _ => hpte m' hm' n, .inl ⟨by decide, hpte m hm _⟩⟩
  | some v =>
    obtain ⟨hv, hin⟩ := (h.wf m hm).toSorted.find_some hfind
    have hok := (h.wf m hm).ok v hv
    dsimp only
    rw [if_neg (Nat.not_lt.mpr hin.1), Proc.get_bind]
    refine (inMem_meets (faultIn_meets hinv.sound (Vm.mem_dirs hm) (hok.lt_userTop hin) v.vmFlags)).imp ?_ ?_ fun _ hp => hp
    · rintro code _ ⟨mem, rfl, hmapped, hentry⟩
      have hinv' : (s₁.setMem mem).Inv M L := by
        refine hinv.setMem hm hmapped ?_
        rintro n _ rfl
        exact ⟨v, hsame.list ▸ hv, hok.has hin⟩
      refine ⟨hinv', hwider.trans (.setMem s₁ mem), ?_, ?_⟩
      · intro m' hm' n hn hno
        rw [← hpte m' hm' n]
        refine hmapped.leaf _ (Vm.mem_dirs hm') n hn fun hcon => hno ⟨?_, hcon.2⟩
        exact hinv.inj m' hm' m hm hcon.1
      · rw [← hpte m hm]
        rcases hentry with hfail | ⟨hcode, p, hleaf⟩
        · exact .inl hfail
        · exact .inr ⟨hcode, v, hv, hin, p, hleaf⟩
    · rintro _ _ ⟨_, _, hfalse⟩
      exact hfalse

end Cow

end Ucore
