import Ucore.Mm.Cow
import Ucore.Mm.Correctness.VmRun

/-!
# `Mm.Correctness.Cow` — what copy-on-write does to the page table entries

`Shared R`: the pages of `R` that the source maps are mapped by the target too, and nobody may write to them any more.
`Faulted`: a fault has left the tables alone, or the entry of its page has been written anew.
-/

namespace Ucore.Cow

open Ucore.PageMem

variable {s s' s₁ s₂ : PageMem} {D : Finset Nat} {L R R' : Nat → Prop} {d d' dst src la start stop m n t i p page : Nat}
  {perm : Perm} {e : Pte} {flags : VmFlags}

theorem readOnly_readOnly (e : Pte) : readOnly (readOnly e) = readOnly e := rfl

theorem readOnly_of_not_w (h : ¬ e.perm.w = true) : readOnly e = e := by
  obtain ⟨ppn, v, r, w, x, u⟩ := e
  obtain rfl : w = false := Bool.eq_false_iff.mpr h
  rfl

/-- The entry that the child gets. -/
theorem pteCreate_readOnly (h : e.v = true) : pteCreate e.ppn (readOnly e).perm = readOnly e := by
  rw [pteCreate, readOnly, h]

/-! ## `copy_range` -/

/-- **The pages in `R` have been shared.** -/
structure Shared (D : Finset Nat) (L : Nat → Prop) (dst src : Nat) (R : Nat → Prop) (s s' : PageMem) : Prop where
  sound : Sound s' D L
  shared : ∀ n, n < userPages → R n → (s.leaf src n).v = true →
    ∀ d ∈ D, d = dst ∨ d = src → s'.leaf d n = readOnly (s.leaf src n)
  same : ∀ d ∈ D, ∀ n, n < userPages → ¬ ((d = dst ∨ d = src) ∧ R n ∧ (s.leaf src n).v = true) → s'.leaf d n = s.leaf d n

namespace Shared

theorem refl (h : Sound s D L) (hR : ∀ n, n < userPages → R n → ¬ (s.leaf src n).v = true) : Shared D L dst src R s s where
  sound := h
  shared n hn hin hv := absurd hv (hR n hn hin)
  same _ _ _ _ _ := rfl

/-- Pages that the source does not map may be added to `R`. -/
theorem mono (h : Shared D L dst src R s s') (hR : ∀ n, n < userPages → (s.leaf src n).v = true → (R n ↔ R' n)) :
    Shared D L dst src R' s s' where
  sound := h.sound
  shared n hn hin hv := h.shared n hn ((hR n hn hv).mpr hin) hv
  same := by
    intro d hd n hn hno
    apply h.same d hd n hn
    rintro ⟨hdir, hin, hv⟩
    exact hno ⟨hdir, (hR n hn hv).mp hin, hv⟩

/-- The source maps the same pages as before. -/
theorem src_v (h : Shared D L dst src R s s') (hsrc : src ∈ D) (hn : n < userPages) : (s'.leaf src n).v = (s.leaf src n).v := by
  by_cases hin : R n ∧ (s.leaf src n).v = true
  · rw [h.shared n hn hin.1 hin.2 src hsrc (.inr rfl)]
    rfl
  · rw [h.same src hsrc n hn fun hcon => hin hcon.2]

theorem trans (hsrc : src ∈ D) (h : Shared D L dst src R s s₁) (h' : Shared D L dst src R' s₁ s₂) :
    Shared D L dst src (fun n => R n ∨ R' n) s s₂ where
  sound := h'.sound
  shared := by
    intro n hn hin hv d hd hdir
    have hv₁ : (s₁.leaf src n).v = true := (h.src_v hsrc hn).trans hv
    have hro : readOnly (s₁.leaf src n) = readOnly (s.leaf src n) := by
      by_cases hR : R n
      · rw [h.shared n hn hR hv src hsrc (.inr rfl), readOnly_readOnly]
      · rw [h.same src hsrc n hn fun hcon => hR hcon.2.1]
    by_cases hR' : R' n
    · rw [h'.shared n hn hR' hv₁ d hd hdir, hro]
    · rw [h'.same d hd n hn fun hcon => hR' hcon.2.1]
      exact h.shared n hn (hin.resolve_right hR') hv d hd hdir
  same := by
    intro d hd n hn hno
    have h₁ : s₁.leaf d n = s.leaf d n := by
      apply h.same d hd n hn
      rintro ⟨hdir, hin, hv⟩
      exact hno ⟨hdir, .inl hin, hv⟩
    rw [← h₁]
    apply h'.same d hd n hn
    rintro ⟨hdir, hin, hv⟩
    exact hno ⟨hdir, .inr hin, (h.src_v hsrc hn).symm.trans hv⟩

end Shared

/-- `ptep` is written whether or not the right has to be taken away. -/
theorem protectPte_run (t i : Nat) (s : PageMem) :
    protectPte (t, i) s = .ok (readOnly (s.table t i)).perm (s.setPte t i (readOnly (s.table t i))) := by
  rw [protectPte, Proc.get_bind]
  dsimp only
  by_cases hw : (s.table t i).perm.w = true
  · rw [if_pos hw]
    rfl
  · have hsame : s.setPte t i (s.table t i) = s := by
      rw [PageMem.setPte, Function.update_eq_self, Function.update_eq_self]
    rw [if_neg hw, readOnly_of_not_w hw, hsame]
    rfl

/-- The entry of a mapped page is protected, and no counter changes. -/
theorem protected_spec (h : Sound s D L) (hd : d ∈ D) (hn : n < userPages) (hpt : s.tab d (ptSlot n) = some t)
    (hv : (s.leaf d n).v = true) :
    Remapped D L d n (readOnly (s.leaf d n)) s (s.setPte t (n % 512) (readOnly (s.leaf d n))) := by
  have hmaps : s.maps d n = some (s.leaf d n).ppn := maps_eq_some.mpr ⟨hv, rfl⟩
  have htarget : target (readOnly (s.leaf d n)) = s.maps d n := by
    rw [maps_eq_target]
    rfl
  refine remapped h hd hn hpt ?_ rfl rfl rfl rfl ?_ (List.nil_append _).symm (Nat.zero_le 1) ?_ fun p => ?_
  · intro p hp
    rw [htarget] at hp
    obtain ⟨hfree, htable⟩ := h.leafBusy d hd n p hn hp
    exact ⟨hfree, htable, h.not_lost (.inr (count_pos hd hn hp))⟩
  · intro p
    rw [htarget]
  · intro p
    rw [htarget]
    exact ⟨fun hmem => absurd hmem List.not_mem_nil, fun hcon => absurd hcon.1 hcon.2.1⟩
  · exact ⟨fun hmem => .inl hmem, fun hmem => hmem.resolve_right List.not_mem_nil⟩

/-- **One page**, which the source maps. -/
theorem sharePage_meets (h : Sound s D L) (hdst : dst ∈ D) (hsrc : src ∈ D) (hla : la < userTop)
    (hpt : s.tab src (ptSlot (la / pgsize)) = some t) (hv : (s.leaf src (la / pgsize)).v = true) :
    (sharePage dst la (t, la / pgsize % 512) s).Meets (fun _ s' => Shared D L dst src (fun n => n = la / pgsize) s s')
      (fun _ _ => False) fun p => p = .copyInsert := by
  have hn := page_lt hla
  have hr := protected_spec h hsrc hn hpt hv
  have hleaf := leaf_of_tab hpt
  rw [sharePage, Proc.get_bind]
  dsimp only
  rw [Proc.bind_ok (protectPte_run t (la / pgsize % 512) s), ← hleaf]
  generalize s.setPte t (la / pgsize % 512) (readOnly (s.leaf src (la / pgsize))) = s₁ at hr
  -- the page is mapped, so it may be mapped once more
  have hmaps : s₁.maps src (la / pgsize) = some (s.leaf src (la / pgsize)).ppn := by
    rw [maps_eq_some, hr.leaf src hsrc _ hn, if_pos ⟨rfl, rfl⟩]
    exact ⟨hv, rfl⟩
  obtain ⟨hfree, htable⟩ := hr.sound.leafBusy src hsrc _ _ hn hmaps
  have hlost := hr.sound.not_lost (.inr (count_pos hsrc hn hmaps))
  rcases pageInsert_spec hr.sound hdst hla hfree htable hlost (readOnly (s.leaf src (la / pgsize))).perm with
    ⟨s', hrun, -⟩ | ⟨s', hrun, hins⟩
  · rw [Proc.bind_ok (Proc.attempt_err hrun)]
    rfl
  · rw [Proc.bind_ok (Proc.attempt_ok hrun)]
    rw [pteCreate_readOnly hv] at hins
    refine ⟨hins.sound, ?_, ?_⟩
    · rintro n hn' rfl - d hd hdir
      rw [hins.leaf hd hn', hr.leaf d hd _ hn']
      rcases hdir with rfl | rfl
      · rw [if_pos ⟨rfl, rfl⟩]
      · simp only [and_self, if_true, ite_self]
    · intro d hd n hn' hno
      rw [hins.leaf hd hn', hr.leaf d hd _ hn', if_neg, if_neg]
      · rintro ⟨rfl, rfl⟩
        exact hno ⟨.inr rfl, rfl, hv⟩
      · rintro ⟨rfl, rfl⟩
        exact hno ⟨.inl rfl, rfl, hv⟩

/-- **A round** gets at least one page further, past pages that the source does not map. -/
theorem copyRound_meets (h : Sound s D L) (hdst : dst ∈ D) (hsrc : src ∈ D) (hla : la < userTop) (hal : la % pgsize = 0) :
    (copyRound dst src la s).Meets (fun next s' => la + pgsize ≤ next ∧ next % pgsize = 0 ∧
        Shared D L dst src (fun n => n = la / pgsize) s s' ∧
        ∀ n, la / pgsize < n → n * pgsize < next → ¬ (s.leaf src n).v = true)
      (fun _ _ => False) fun p => p = .copyInsert := by
  have hstep : (la + pgsize) % pgsize = 0 := by rw [Nat.add_mod_right, hal]
  have hpast : ∀ n, la / pgsize < n → ¬ n * pgsize < la + pgsize := by
    intro n hlt
    have hal' : la % 2 ^ 12 = 0 := hal
    have hlt' : la / 2 ^ 12 < n := hlt
    show ¬ n * 2 ^ 12 < la + 2 ^ 12
    omega
  rw [copyRound, Proc.bind_ok (getPte_false s src hla)]
  cases hpt : s.tab src (ptSlot (la / pgsize)) with
  | none =>
    -- there is no page table for this page and those that are skipped
    have hskipped : ∀ n, la / pgsize ≤ n → n * pgsize < nextTable la → ¬ (s.leaf src n).v = true := by
      intro n hle hlt
      rw [leaf_of_none ((ptSlot_skipped hle hlt).symm ▸ hpt)]
      exact Bool.false_ne_true
    refine ⟨le_nextTable hal, nextTable_aligned la, .refl h ?_, fun n hlt hnext => hskipped n (Nat.le_of_lt hlt) hnext⟩
    rintro n - rfl
    apply hskipped _ (Nat.le_refl _)
    calc la / pgsize * pgsize ≤ la := Nat.div_mul_le_self la pgsize
      _ < la + pgsize := Nat.lt_add_of_pos_right (by decide)
      _ ≤ nextTable la := le_nextTable hal
  | some t =>
    dsimp only [Option.map_some]
    rw [Proc.get_bind, ← leaf_of_tab hpt]
    have hnone : ∀ n, la / pgsize < n → n * pgsize < la + pgsize → ¬ (s.leaf src n).v = true :=
      fun n hlt hnext => absurd hnext (hpast n hlt)
    by_cases hv : (s.leaf src (la / pgsize)).v = true
    · rw [if_pos hv]
      exact (sharePage_meets h hdst hsrc hla hpt hv).bind fun _ s' hshared => ⟨Nat.le_refl _, hstep, hshared, hnone⟩
    · rw [if_neg hv]
      refine ⟨Nat.le_refl _, hstep, .refl h ?_, hnone⟩
      rintro n - rfl
      exact hv

/-- **`copy_range`** never returns an error. -/
theorem copyRange_meets (h : Sound s D L) (hdst : dst ∈ D) (hsrc : src ∈ D) :
    (copyRange dst src start stop s).Meets (fun _ s' => Shared D L dst src (InRange start stop) s s') (fun _ _ => False)
      fun _ => True := by
  refine ((checkRange_meets s start stop).imp (fun _ _ h => h) (fun _ _ h => h) fun _ _ => trivial).bind ?_
  rintro _ s₀ ⟨heq, hal, -, -, hlt, htop⟩
  obtain rfl : s = s₀ := heq.symm
  -- the invariant of the loop: the pages below the cursor have been shared
  have hloop := @rangeLoop_meets stop (copyRound dst src)
    (fun la s' => start ≤ la ∧ la % pgsize = 0 ∧ Shared D L dst src (fun n => InRange start stop n ∧ n * pgsize < la) s s')
    (fun _ _ => False) (fun _ => True) ?_ (rangeFuel start stop) start s (Nat.lt_succ_self _) hlt
    ⟨Nat.le_refl _, hal, .refl h fun n _ hin => absurd hin.1.1 (Nat.not_le.mpr hin.2)⟩
  · refine hloop.imp ?_ (fun _ _ h => h) fun _ h => h
    rintro _ s' ⟨next, hnext, -, -, hshared⟩
    exact hshared.mono fun n _ _ => ⟨fun hin => hin.1, fun hin => ⟨hin, Nat.lt_of_lt_of_le hin.2 hnext⟩⟩
  · rintro la s₁ hla ⟨hlo, hal₁, hshared⟩
    refine (copyRound_meets hshared.sound hdst hsrc (Nat.lt_of_lt_of_le hla htop) hal₁).imp ?_ (fun _ _ h => h) fun _ _ => trivial
    rintro next s₂ ⟨hnext, hal₂, hround, hnone⟩
    refine ⟨hnext, by omega, hal₂, (hshared.trans hsrc hround).mono fun n hn hv => ?_⟩
    have hv₁ : (s₁.leaf src n).v = true := (hshared.src_v hsrc hn).trans hv
    have hcur : la / pgsize * pgsize = la := Nat.div_mul_cancel (Nat.dvd_of_mod_eq_zero hal₁)
    have hpg : 0 < pgsize := by decide
    constructor
    · rintro (⟨hin, hbelow⟩ | rfl)
      · exact ⟨hin, by omega⟩
      · rw [InRange, hcur]
        exact ⟨⟨hlo, hla⟩, by omega⟩
    · rintro ⟨hin, hbelow⟩
      rcases Nat.lt_trichotomy n (la / pgsize) with hlt' | rfl | hgt
      · refine .inl ⟨hin, ?_⟩
        rw [← hcur]
        exact Nat.mul_lt_mul_of_pos_right hlt' hpg
      · exact .inr rfl
      · exact absurd hv₁ (hnone n hgt hbelow)

/-! ## `do_pgfault` -/

/-- **A fault on page `n`** has failed, or written its entry with these permissions. -/
structure Faulted (D : Finset Nat) (L : Nat → Prop) (d n : Nat) (perm : Perm) (code : Int) (s s' : PageMem) : Prop where
  mapped : Mapped D L d (fun m => m = n) s s'
  entry : code ≠ 0 ∧ s'.leaf d n = s.leaf d n ∨ code = 0 ∧ ∃ p, s'.leaf d n = pteCreate p perm

/-- **`pgdir_alloc_page`**, and what it does to the entry. -/
theorem pgdirAllocPage_entry (h : Sound s D L) (hd : d ∈ D) (hla : la < userTop) (perm : Perm) :
    (pgdirAllocPage d la perm s).Meets (fun page s' => Mapped D L d (fun m => m = la / pgsize) s s' ∧
        s'.leaf d (la / pgsize) = match page with
          | none   => s.leaf d (la / pgsize)
          | some p => pteCreate p perm)
      (fun _ _ => False) fun _ => False := by
  have hn := page_lt hla
  have hmapped := pgdirAllocPage_mapped h hd hla perm
  rcases pgdirAllocPage_spec h hd hla perm with hrun | ⟨p, s₁, hp, hg, -, hrun⟩ | ⟨p, s', hp, hins, hrun⟩
  · exact hrun ▸ ⟨hmapped.of_ok hrun, rfl⟩
  · have hleaf : (s₁.give p).leaf d (la / pgsize) = s.leaf d (la / pgsize) := hg.leaf d hd _ hn
    exact hrun ▸ ⟨hmapped.of_ok hrun, hleaf⟩
  · have hleaf := hins.leaf hd hn
    rw [if_pos ⟨rfl, rfl⟩] at hleaf
    exact hrun ▸ ⟨hmapped.of_ok hrun, hleaf⟩

theorem missingFault_meets (h : Sound s D L) (hd : d ∈ D) (hla : la < userTop) (perm : Perm) :
    (missingFault d la perm s).Meets (fun code s' => Faulted D L d (la / pgsize) perm code s s') (fun _ _ => False)
      fun _ => False := by
  refine (pgdirAllocPage_entry h hd hla perm).bind ?_
  rintro (_ | p) s' ⟨hmapped, hleaf⟩
  · exact ⟨hmapped, .inl ⟨by decide, hleaf⟩⟩
  · exact ⟨hmapped, .inr ⟨rfl, p, hleaf⟩⟩

/-- `page_insert` of a page that the caller holds. -/
theorem pageInsert_entry (h : Sound s D L) (hd : d ∈ D) (hla : la < userTop) (hfree : p ∉ s.free) (htable : ¬ s.IsTable D p)
    (hlost : ¬ L p) (perm : Perm) :
    (pageInsert d p la perm s).Meets
      (fun _ s' => Mapped D L d (fun m => m = la / pgsize) s s' ∧ s'.leaf d (la / pgsize) = pteCreate p perm)
      (fun _ s' => Deepened D d (la / pgsize) s s') fun _ => False := by
  have hn := page_lt hla
  rcases pageInsert_spec h hd hla hfree htable hlost perm with ⟨s', hrun, hg, -⟩ | ⟨s', hrun, hins⟩
  · exact hrun ▸ hg
  · have hleaf := hins.leaf hd hn
    rw [if_pos ⟨rfl, rfl⟩] at hleaf
    obtain ⟨s₁, hg, hr⟩ := hins
    exact hrun ▸ ⟨(hg.mapped h).trans (hr.mapped rfl), hleaf⟩

/-- **A copy-on-write fault.** -/
theorem cowFault_meets (h : Sound s D L) (hd : d ∈ D) (hla : la < userTop) (hmaps : s.maps d (la / pgsize) = some page)
    (perm : Perm) : (cowFault d la page perm s).Meets (fun code s' => Faulted D L d (la / pgsize) perm code s s')
      (fun _ _ => False) fun _ => False := by
  have hn := page_lt hla
  rw [cowFault, Proc.get_bind]
  by_cases hshared : s.ref page > 1
  · rw [if_pos hshared]
    rcases allocPage_cases s with hal | ⟨p, hp, hal⟩
    · rw [Proc.bind_ok hal]
      exact ⟨⟨h.tick, fun _ _ _ _ _ => rfl, Nat.le_succ _⟩, .inl ⟨by decide, rfl⟩⟩
    · rw [Proc.bind_ok hal]
      dsimp only
      rw [Proc.modify_bind]
      have hcopy : (s.take p).setData p (memcpy ((s.take p).data p) 0 ((s.take p).data page) 0 pgsize) = s.copied p page := rfl
      rw [hcopy]
      have h₁ : Sound (s.copied p page) D L := h.copied p page
      have hm₁ : Mapped D L d (fun m => m = la / pgsize) s (s.copied p page) := ⟨h₁, fun _ _ _ _ _ => rfl, Nat.le_refl _⟩
      have hfree : p ∉ (s.copied p page).free := Finset.notMem_erase p s.free
      have htable : ¬ (s.copied p page).IsTable D p := h.not_isTable hp
      have hzero : (s.copied p page).count D p = 0 := h.count_free hp
      have hins := pageInsert_entry h₁ hd hla hfree htable (h.not_lost (.inl hp)) perm
      cases hrun : pageInsert d p la perm (s.copied p page) with
      | ok u s' =>
        obtain ⟨hm, hleaf⟩ := hins.of_ok hrun
        rw [Proc.bind_ok (Proc.attempt_ok hrun)]
        exact ⟨hm₁.trans hm, .inr ⟨rfl, p, hleaf⟩⟩
      | err e s' =>
        have hg := hins.of_err hrun
        rw [Proc.bind_ok (Proc.attempt_err hrun)]
        -- the new page goes back
        have hm := hm₁.trans (hg.mapped h₁)
        have hgive := hm.sound.give (hg.not_isTable hfree htable) (h.not_lost (.inl hp)) ((hg.count p).trans hzero)
        have hleaf : (s'.give p).leaf d (la / pgsize) = s.leaf d (la / pgsize) := hg.leaf d hd _ hn
        exact ⟨⟨hgive, hm.leaf, hm.nulls⟩, .inl ⟨by decide, hleaf⟩⟩
      | panic q => exact (hins.of_panic hrun).elim
  · rw [if_neg hshared]
    obtain ⟨hfree, htable⟩ := h.leafBusy d hd _ _ hn hmaps
    have hins := pageInsert_entry h hd hla hfree htable (h.not_lost (.inr (count_pos hd hn hmaps))) perm
    cases hrun : pageInsert d page la perm s with
    | ok u s' =>
      obtain ⟨hm, hleaf⟩ := hins.of_ok hrun
      rw [Proc.bind_ok (Proc.attempt_ok hrun)]
      exact ⟨hm, .inr ⟨rfl, page, hleaf⟩⟩
    | err e s' =>
      have hg := hins.of_err hrun
      rw [Proc.bind_ok (Proc.attempt_err hrun)]
      exact ⟨hg.mapped h, .inl ⟨by decide, hg.leaf d hd _ hn⟩⟩
    | panic q => exact (hins.of_panic hrun).elim

/-- `perm` of `do_pgfault` -/
def faultPerm (pte : Pte) (flags : VmFlags) : Perm := if IsCow pte flags then cowPerm flags else missingPerm flags

/-- **`do_pgfault` inside an area.** -/
theorem faultIn_meets (h : Sound s D L) (hd : d ∈ D) (hla : la < userTop) (flags : VmFlags) :
    (faultIn d la flags s).Meets
      (fun code s' => Faulted D L d (la / pgsize) (faultPerm (s.leaf d (la / pgsize)) flags) code s s') (fun _ _ => False)
      fun _ => False := by
  have hdown : rounddown la pgsize / pgsize = la / pgsize := by
    show (la - la % 2 ^ 12) / 2 ^ 12 = la / 2 ^ 12
    omega
  have hlt : rounddown la pgsize < userTop := Nat.lt_of_le_of_lt (Nat.sub_le _ _) hla
  rw [faultIn]
  dsimp only
  rw [Proc.bind_ok (getPte_false s d hlt), hdown]
  cases hpt : s.tab d (ptSlot (la / pgsize)) with
  | none =>
    have hno : ¬ IsCow (s.leaf d (la / pgsize)) flags := by
      rw [leaf_of_none hpt]
      exact fun hcow => Bool.noConfusion hcow.1
    rw [faultPerm, if_neg hno]
    exact missingFault_meets h hd hla _
  | some t =>
    dsimp only [Option.map_some]
    rw [Proc.get_bind, ← leaf_of_tab hpt, faultPerm]
    by_cases hcow : IsCow (s.leaf d (la / pgsize)) flags
    · rw [if_pos hcow, if_pos hcow]
      have hmaps : s.maps d (rounddown la pgsize / pgsize) = some (s.leaf d (la / pgsize)).ppn := by
        rw [hdown]
        exact maps_eq_some.mpr ⟨hcow.1, rfl⟩
      have hfault := cowFault_meets h hd hlt hmaps (cowPerm flags)
      rw [hdown] at hfault
      exact hfault
    · rw [if_neg hcow, if_neg hcow]
      exact missingFault_meets h hd hla _

end Ucore.Cow
