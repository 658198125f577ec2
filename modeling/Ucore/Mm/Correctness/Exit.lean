import Ucore.Mm.Vmm
import Ucore.Mm.Correctness.Cut
import Ucore.Mm.Correctness.Ranges

/-!
# `Mm.Correctness.Exit` — `exit_range`

For a directory that maps no page any more. A pass is one round of the outer loop: it gives back the page tables
below an entry of the root that the area touches, and then the table of level 1 if all of these were there.
-/

namespace Ucore

open PageMem

/-- The page tables below entry `i` of the root. -/
def PageMem.below (s : PageMem) (d i : Nat) : Finset Nat := (Finset.range 512).filter fun j => (s.tab d (.pt i j)).isSome

/-- The entries that the inner loop visits, from `j₀` on. -/
def scan (i j₀ stop : Nat) : Finset Nat := (Finset.range 512).filter fun j => j₀ ≤ j ∧ i * pdsize + j * ptsize < stop

variable {s s' s1 : PageMem} {D : Finset Nat} {d i j j₀ n p pd0 pt stop fuel : Nat} {flag : Bool}

theorem mem_below : j ∈ s.below d i ↔ j < 512 ∧ ∃ p, s.tab d (.pt i j) = some p := by
  rw [below, Finset.mem_filter, Finset.mem_range, Option.isSome_iff_exists]

theorem mem_scan : j ∈ scan i j₀ stop ↔ j < 512 ∧ j₀ ≤ j ∧ i * pdsize + j * ptsize < stop := by
  rw [scan, Finset.mem_filter, Finset.mem_range]

theorem scan_succ (hj : j₀ < 512) (hlt : i * pdsize + j₀ * ptsize < stop) :
    scan i j₀ stop = insert j₀ (scan i (j₀ + 1) stop) := by
  ext j
  rw [Finset.mem_insert, mem_scan, mem_scan]
  constructor
  · rintro ⟨h1, h2, h3⟩
    by_cases heq : j = j₀
    · exact .inl heq
    · exact .inr ⟨h1, by omega, h3⟩
  · rintro (rfl | ⟨h1, h2, h3⟩)
    · exact ⟨hj, Nat.le_refl _, hlt⟩
    · exact ⟨h1, by omega, h3⟩

theorem scan_empty (h : ¬ (j₀ < 512 ∧ i * pdsize + j₀ * ptsize < stop)) : scan i j₀ stop = ∅ := by
  refine Finset.eq_empty_of_forall_notMem fun j hj => h ?_
  obtain ⟨h1, h2, h3⟩ := mem_scan.mp hj
  have hmul : j₀ * ptsize ≤ j * ptsize := Nat.mul_le_mul_right _ h2
  exact ⟨by omega, by omega⟩

/-! ## The inner loop -/

theorem pdx0_cursor (hj : j < 512) : pdx0 (i * pdsize + j * ptsize) = j := by
  show (i * 2 ^ 30 + j * 2 ^ 21) / 2 ^ 21 % 512 = j
  omega

/-- The page tables of a directory that maps nothing are empty. -/
theorem ptEmpty_of_blank (hb : s.Blank d) (hi : i < 2) (hj : j < 512) (hpt : s.tab d (.pt i j) = some pt) :
    ptEmpty (s.table pt) = true := by
  rw [ptEmpty, List.all_eq_true]
  intro k hk
  rw [List.mem_range] at hk
  have hn : i * 2 ^ 18 + j * 2 ^ 9 + k < userPages := by
    show _ < 2 ^ 19
    omega
  have hslot : ptSlot (i * 2 ^ 18 + j * 2 ^ 9 + k) = .pt i j := by
    show TSlot.pt _ _ = _
    rw [show (i * 2 ^ 18 + j * 2 ^ 9 + k) / 2 ^ 18 = i by omega,
      show (i * 2 ^ 18 + j * 2 ^ 9 + k) / 2 ^ 9 % 512 = j by omega]
  have hnone := hb _ hn
  rw [maps, leaf_of_tab (hslot ▸ hpt), show (i * 2 ^ 18 + j * 2 ^ 9 + k) % 512 = k by omega] at hnone
  cases hv : (s.table pt k).v with
  | false => rfl
  | true =>
    rw [if_pos hv] at hnone
    cases hnone

/-- One visit: the page table, if there is one, goes. -/
theorem exitPd0_visit (h : Trees s D) (hd : d ∈ D) (hb : s.Blank d) (hi : i < 2) (hpd : s.tab d (.pd i) = some pd0)
    (hj : j < 512) (fuel : Nat) (flag : Bool) :
    ∃ s1, Exited D d (fun v => v = .pt i j) (fun v => v = .pt i j) s s1 ∧
      exitPd0 pd0 stop (i * pdsize) (fuel + 1) (i * pdsize + j * ptsize) flag s =
        (if i * pdsize + j * ptsize + ptsize ≠ 0 ∧ i * pdsize + j * ptsize + ptsize < i * pdsize + pdsize ∧
            i * pdsize + j * ptsize + ptsize < stop then
          exitPd0 pd0 stop (i * pdsize) fuel (i * pdsize + j * ptsize + ptsize) (flag && decide (j ∈ s.below d i))
        else pure (flag && decide (j ∈ s.below d i), i * pdsize + j * ptsize + ptsize) : MemM (Bool × Nat)) s1 := by
  have htab : s.tab d (.pt i j) = s.sub pd0 j := by
    show (s.sub d i).bind _ = _
    rw [show s.sub d i = some pd0 from hpd]
    rfl
  by_cases hv : (s.table pd0 j).v = true
  · have hpt : s.tab d (.pt i j) = some (s.table pd0 j).ppn := by rw [htab, PageMem.sub, if_pos hv]
    have hmem : decide (j ∈ s.below d i) = (s.table pd0 j).v := by
      rw [hv]
      exact decide_eq_true (mem_below.mpr ⟨hj, _, hpt⟩)
    have hpar : s.parent d (.pt i j) = some (pd0, j) := by
      rw [parent, show s.sub d i = some pd0 from hpd]
      rfl
    have hu : (TSlot.pt i j).User := ⟨hi, hj⟩
    refine ⟨_, exited_cutTable h hd hu hpar hpt hb, ?_⟩
    rw [exitPd0, Proc.get_bind, pdx0_cursor hj, hmem]
    rw [if_pos hv, if_pos (ptEmpty_of_blank hb hi hj hpt)]
    rw [freePage, Proc.modify_bind, Proc.modify_bind, cutTable]
  · have hnone : s.tab d (.pt i j) = none := by rw [htab, PageMem.sub, if_neg hv]
    have hmem : decide (j ∈ s.below d i) = (s.table pd0 j).v := by
      rw [Bool.eq_false_of_not_eq_true hv]
      refine decide_eq_false fun hmem => ?_
      obtain ⟨_, p, hp⟩ := mem_below.mp hmem
      rw [hnone] at hp
      cases hp
    refine ⟨s, ?_, ?_⟩
    · -- nothing is there, so nothing is gone
      have hrefl := Exited.refl (d := d) h
      refine ⟨h, hrefl.maps, fun d' hd' v p hv => ?_, rfl, [], rfl, List.nodup_nil, fun p => ?_, fun p => ?_⟩
      · refine ⟨fun hq => ⟨hq, ?_⟩, fun hq => hq.1⟩
        rintro ⟨rfl, rfl⟩
        rw [hnone] at hq
        cases hq
      · refine ⟨fun hp => absurd hp List.not_mem_nil, ?_⟩
        rintro ⟨v, _, rfl, hp⟩
        rw [hnone] at hp
        cases hp
      · exact ⟨fun hp => .inl hp, fun hp => hp.resolve_right List.not_mem_nil⟩
    · rw [exitPd0, Proc.get_bind, pdx0_cursor hj, hmem]
      simp only [if_neg hv]

theorem PageMem.Exited.below_erase {j : Nat} (hd : d ∈ D) (hi : i < 2)
    (h : Exited D d (fun v => v = .pt i j) (fun v => v = .pt i j) s s1) : s1.below d i = (s.below d i).erase j := by
  ext k
  rw [Finset.mem_erase, mem_below, mem_below]
  constructor
  · rintro ⟨hk, p, hp⟩
    obtain ⟨hold, hno⟩ := (h.tab d hd (.pt i k) p ⟨hi, hk⟩).mp hp
    exact ⟨fun heq => hno ⟨rfl, heq ▸ rfl⟩, hk, p, hold⟩
  · rintro ⟨hne, hk, p, hp⟩
    refine ⟨hk, p, (h.tab d hd (.pt i k) p ⟨hi, hk⟩).mpr ⟨hp, ?_⟩⟩
    rintro ⟨-, heq⟩
    injection heq with _ h2
    exact hne h2

/-- **The inner loop** gives back the page tables it visits, and tells whether all of them were there. -/
theorem exitPd0_spec (hd : d ∈ D) (hi : i < 2) (fuel : Nat) : ∀ {s : PageMem} {j : Nat} {flag : Bool}, Trees s D →
    s.Blank d → s.tab d (.pd i) = some pd0 → j < 512 → i * pdsize + j * ptsize < stop → 512 - j < fuel + 1 →
    ∃ cur s', exitPd0 pd0 stop (i * pdsize) (fuel + 1) (i * pdsize + j * ptsize) flag s =
        .ok (flag && decide (scan i j stop ⊆ s.below d i), cur) s' ∧
      Exited D d (fun v => ∃ k ∈ scan i j stop, v = .pt i k) (fun v => ∃ k ∈ scan i j stop, v = .pt i k) s s' := by
  induction fuel with
  | zero =>
    intro s j flag _ _ _ hj _ hfuel
    exact absurd hfuel (by omega)
  | succ fuel ih =>
    intro s j flag h hb hpd hj hlt hfuel
    obtain ⟨s1, hex, hrun⟩ := @exitPd0_visit s D d i j pd0 stop h hd hb hi hpd hj (fuel + 1) flag
    have hcur : i * pdsize + j * ptsize + ptsize = i * pdsize + (j + 1) * ptsize := by
      rw [Nat.succ_mul, Nat.add_assoc]
    rw [hcur] at hrun
    rw [hrun, scan_succ hj hlt]
    -- the entries behind the first one
    have hnot : j ∉ scan i (j + 1) stop := fun hmem => absurd (mem_scan.mp hmem).2.1 (by omega)
    have hsub : ∀ fl : Bool, (fl && decide (j ∈ s.below d i) && decide (scan i (j + 1) stop ⊆ s1.below d i)) =
        (fl && decide (insert j (scan i (j + 1) stop) ⊆ s.below d i)) := by
      intro fl
      rw [Bool.and_assoc, ← Bool.decide_and, hex.below_erase hd hi]
      congr 2
      rw [Finset.insert_subset_iff, Finset.subset_erase]
      exact propext ⟨fun hh => ⟨hh.1, hh.2.1⟩, fun hh => ⟨hh.1, hh.2, hnot⟩⟩
    have hjoin : ∀ {s2 : PageMem}, Exited D d (fun v => ∃ k ∈ scan i (j + 1) stop, v = .pt i k)
        (fun v => ∃ k ∈ scan i (j + 1) stop, v = .pt i k) s1 s2 →
        Exited D d (fun v => ∃ k ∈ insert j (scan i (j + 1) stop), v = .pt i k)
          (fun v => ∃ k ∈ insert j (scan i (j + 1) stop), v = .pt i k) s s2 := by
      intro s2 hrest
      refine (hex.trans h hd hrest fun _ hg => hg).congr (fun v _ => ?_) fun v _ => ?_
      · simp only [Finset.mem_insert, exists_eq_or_imp]
      · simp only [Finset.mem_insert, exists_eq_or_imp]
        refine or_congr_right ⟨fun hh => hh.1, ?_⟩
        rintro ⟨k, hk, rfl⟩
        refine ⟨⟨k, hk, rfl⟩, fun heq => ?_⟩
        injection heq with _ h2
        rw [h2] at hk
        exact hnot hk
    by_cases hnext : j + 1 < 512 ∧ i * pdsize + (j + 1) * ptsize < stop
    · have hcond : i * pdsize + (j + 1) * ptsize ≠ 0 ∧ i * pdsize + (j + 1) * ptsize < i * pdsize + pdsize ∧
          i * pdsize + (j + 1) * ptsize < stop := by
        have hpt : 0 < ptsize := by decide
        have hpd0 : pdsize = 512 * ptsize := by decide
        have hmul : (j + 1) * ptsize < 512 * ptsize := Nat.mul_lt_mul_of_pos_right hnext.1 hpt
        have hpos : 0 < (j + 1) * ptsize := Nat.mul_pos (Nat.succ_pos j) hpt
        exact ⟨by omega, by omega, hnext.2⟩
      have hpd1 : s1.tab d (.pd i) = some pd0 :=
        (hex.tab d hd (.pd i) pd0 hi).mpr ⟨hpd, fun hcon => TSlot.noConfusion hcon.2⟩
      obtain ⟨cur, s2, hrun2, hex2⟩ := @ih s1 (j + 1) (flag && decide (j ∈ s.below d i)) hex.trees
        (hex.blank hd hb) hpd1 hnext.1 hnext.2 (by omega)
      refine ⟨cur, s2, ?_, hjoin hex2⟩
      rw [← hsub, if_pos hcond]
      exact hrun2
    · have hcond : ¬ (i * pdsize + (j + 1) * ptsize ≠ 0 ∧ i * pdsize + (j + 1) * ptsize < i * pdsize + pdsize ∧
          i * pdsize + (j + 1) * ptsize < stop) := by
        rintro ⟨-, h1, h2⟩
        have hpd0 : pdsize = 512 * ptsize := by decide
        refine hnext ⟨?_, h2⟩
        rw [hpd0] at h1
        exact Nat.lt_of_mul_lt_mul_right (Nat.lt_of_add_lt_add_left h1)
      have hempty : scan i (j + 1) stop = ∅ := scan_empty hnext
      refine ⟨i * pdsize + (j + 1) * ptsize, s1, ?_, ?_⟩
      · have hflag := hsub flag
        rw [hempty, decide_eq_true (Finset.empty_subset _), Bool.and_true] at hflag
        rw [if_neg hcond, hempty, hflag]
        rfl
      · refine hjoin ((Exited.refl hex.trees).congr (fun v _ => ?_) fun v _ => ?_)
        · rw [hempty]
          simp only [Finset.notMem_empty, false_and, exists_false]
        · rw [hempty]
          simp only [Finset.notMem_empty, false_and, exists_false]

/-! ## A pass over the directory at an entry of the root -/

/-- The places that a pass over the entries `S` takes out of sight, and those whose tables it gives back. -/
def PageMem.passX (s : PageMem) (d i : Nat) (S : Finset Nat) (v : TSlot) : Prop :=
  (s.tab d (.pd i)).isSome ∧ ((∃ j ∈ S, v = .pt i j) ∨ S ⊆ s.below d i ∧ (TSlot.pd i).Under v)

def PageMem.passG (s : PageMem) (d i : Nat) (S : Finset Nat) (v : TSlot) : Prop :=
  (s.tab d (.pd i)).isSome ∧ ((∃ j ∈ S, v = .pt i j) ∨ S ⊆ s.below d i ∧ v = .pd i)

theorem exitPass_none {d1start d0start : Nat} (hpd : s.tab d (.pd (pdx1 d1start)) = none) :
    exitPass d stop d1start d0start s = .ok () s := by
  have hv : ¬ (s.table d (pdx1 d1start)).v = true := by
    intro hv
    have hsub : s.sub d (pdx1 d1start) = none := hpd
    rw [PageMem.sub, if_pos hv] at hsub
    cases hsub
  rw [exitPass, Proc.get_bind, if_neg hv]
  rfl

theorem exitPass_some {d1start d0start : Nat} (hpd : s.tab d (.pd (pdx1 d1start)) = some pd0) {cur : Nat}
    (hrun : exitPd0 pd0 stop d1start 513 d0start true s = .ok (flag, cur) s1) :
    exitPass d stop d1start d0start s = .ok () (if flag = true then s1.cutTable d (pdx1 d1start) pd0 else s1) := by
  have hsub : s.sub d (pdx1 d1start) = some pd0 := hpd
  by_cases hv : (s.table d (pdx1 d1start)).v = true
  · rw [PageMem.sub, if_pos hv] at hsub
    injection hsub with hppn
    rw [exitPass, Proc.get_bind, if_pos hv, hppn, Proc.bind_ok hrun]
    cases flag with
    | true => rfl
    | false => rfl
  · rw [PageMem.sub, if_neg hv] at hsub
    cases hsub

theorem pdx1_cursor (hi : i < 2) : pdx1 (i * pdsize) = i := by
  show i * 2 ^ 30 / 2 ^ 30 % 512 = i
  omega

/-- **A pass.** -/
theorem exitPass_spec (h : Trees s D) (hd : d ∈ D) (hb : s.Blank d) (hi : i < 2) (hj : j < 512)
    (hlt : i * pdsize + j * ptsize < stop) :
    ∃ s', exitPass d stop (i * pdsize) (i * pdsize + j * ptsize) s = .ok () s' ∧
      Exited D d (s.passX d i (scan i j stop)) (s.passG d i (scan i j stop)) s s' := by
  cases hpd : s.tab d (.pd i) with
  | none =>
    have hpd' : s.tab d (.pd (pdx1 (i * pdsize))) = none := by rw [pdx1_cursor hi, hpd]
    refine ⟨s, exitPass_none hpd', (Exited.refl h).congr (fun v _ => ?_) fun v _ => ?_⟩
    · rw [passX, hpd]
      simp only [Option.isSome_none, Bool.false_eq_true, false_and]
    · rw [passG, hpd]
      simp only [Option.isSome_none, Bool.false_eq_true, false_and]
  | some pd0 =>
    have hpd' : s.tab d (.pd (pdx1 (i * pdsize))) = some pd0 := by rw [pdx1_cursor hi, hpd]
    obtain ⟨cur, s1, hrun, hex⟩ := @exitPd0_spec D d i pd0 stop hd hi 512 s j true h hb hpd hj hlt (by omega)
    refine ⟨_, exitPass_some hpd' hrun, ?_⟩
    rw [Bool.true_and, pdx1_cursor hi]
    have hsome : (s.tab d (.pd i)).isSome = true := by
      rw [hpd]
      rfl
    by_cases hall : scan i j stop ⊆ s.below d i
    · -- all of them were there: the table of level 1 goes as well
      have hpd1 : s1.tab d (.pd i) = some pd0 := by
        refine (hex.tab d hd (.pd i) pd0 hi).mpr ⟨hpd, ?_⟩
        rintro ⟨-, k, -, heq⟩
        cases heq
      have hu : (TSlot.pd i).User := hi
      have hcut := exited_cutTable hex.trees hd hu rfl hpd1 (hex.blank hd hb)
      rw [if_pos (decide_eq_true hall)]
      refine (hex.trans h hd hcut fun _ hg => hg).congr (fun v _ => ?_) fun v _ => ?_
      · rw [passX, and_iff_right hsome, and_iff_right hall]
      · rw [passG, and_iff_right hsome, and_iff_right hall]
        refine or_congr_right ⟨fun hh => hh.1, ?_⟩
        rintro rfl
        refine ⟨rfl, ?_⟩
        rintro ⟨k, -, heq⟩
        cases heq
    · rw [if_neg fun hdec => hall (of_decide_eq_true hdec)]
      refine hex.congr (fun v _ => ?_) fun v _ => ?_
      · rw [passX, and_iff_right hsome, or_iff_left fun hh => hall hh.1]
      · rw [passG, and_iff_right hsome, or_iff_left fun hh => hall hh.1]

/-! ## `exit_range` -/

/-- The page tables below entry `i` that serve an address of `[start, stop)`. -/
def touched (start stop i : Nat) : Finset Nat :=
  (Finset.range 512).filter fun j => start < (i * 512 + j + 1) * ptsize ∧ (i * 512 + j) * ptsize < stop

/-- The passes of `exit_range`. -/
def rangePasses (start stop : Nat) : List (Nat × Finset Nat) :=
  ((List.range 2).map fun i => (i, touched start stop i)).filter fun ps => decide ps.2.Nonempty

/-- The passes `ps` lead from one state to the other. -/
inductive Passes (D : Finset Nat) (d : Nat) : List (Nat × Finset Nat) → PageMem → PageMem → Prop where
  | nil {s : PageMem} : Passes D d [] s s
  | cons {s s1 s2 : PageMem} {i : Nat} {S : Finset Nat} {ps : List (Nat × Finset Nat)} (hi : i < 2)
      (hex : Exited D d (s.passX d i S) (s.passG d i S) s s1) (h : Passes D d ps s1 s2) :
      Passes D d ((i, S) :: ps) s s2

theorem Passes.append {ps qs : List (Nat × Finset Nat)} (h : Passes D d ps s s1) (h' : Passes D d qs s1 s') :
    Passes D d (ps ++ qs) s s' := by
  induction h with
  | nil => exact h'
  | cons hi hex _ ih => exact .cons hi hex (ih h')

theorem Passes.keep {ps : List (Nat × Finset Nat)} (h : Passes D d ps s s') (hs : Trees s D) (hd : d ∈ D)
    (hb : s.Blank d) : Trees s' D ∧ s'.Blank d := by
  induction h with
  | nil => exact ⟨hs, hb⟩
  | cons hi hex _ ih => exact ih hex.trees (hex.blank hd hb)

variable {start : Nat}

theorem touched_eq_scan (h : ∀ k < 512, start < (i * 512 + k + 1) * ptsize ↔ j ≤ k) :
    touched start stop i = scan i j stop := by
  ext k
  rw [touched, Finset.mem_filter, Finset.mem_range, mem_scan]
  refine and_congr_right fun hk => ?_
  rw [h k hk, show i * pdsize + k * ptsize = (i * 512 + k) * ptsize by
    show i * 2 ^ 30 + k * 2 ^ 21 = (i * 512 + k) * 2 ^ 21
    omega]

theorem scan_nonempty (hj : j < 512) (hlt : i * pdsize + j * ptsize < stop) : (scan i j stop).Nonempty :=
  ⟨j, mem_scan.mpr ⟨hj, Nat.le_refl j, hlt⟩⟩

/-- **`exit_range`** is a sequence of passes. -/
theorem exitRange_spec (h : Trees s D) (hd : d ∈ D) (hb : s.Blank d) (hal : start % pgsize = 0)
    (hal' : stop % pgsize = 0) (hac : UserAccess start stop) :
    ∃ s', exitRange d start stop s = .ok () s' ∧ Passes D d (rangePasses start stop) s s' := by
  have hlt : start < stop := hac.2.1
  have htop : stop ≤ 2 ^ 31 := hac.2.2
  rw [exitRange, Proc.bind_ok (checkRange_ok hal hal' hac)]
  have hpg : pdsize = 2 ^ 30 := rfl
  have hpt : ptsize = 2 ^ 21 := rfl
  -- the cursors: entry `start / pdsize` of the root, and below it the entry of the first page
  obtain ⟨i, j, hi, hj, hd1, hd0⟩ : ∃ i j, i < 2 ∧ j < 512 ∧ rounddown start pdsize = i * pdsize ∧
      rounddown start ptsize = i * pdsize + j * ptsize := by
    refine ⟨start / 2 ^ 30, start / 2 ^ 21 % 512, by omega, by omega, ?_, ?_⟩
    · show start - start % 2 ^ 30 = start / 2 ^ 30 * 2 ^ 30
      omega
    · show start - start % 2 ^ 21 = start / 2 ^ 30 * 2 ^ 30 + start / 2 ^ 21 % 512 * 2 ^ 21
      omega
  have hd0' : start - start % 2 ^ 21 = i * 2 ^ 30 + j * 2 ^ 21 := hd0
  have hfirst : i * pdsize + j * ptsize < stop := by
    rw [← hd0]
    exact Nat.lt_of_le_of_lt (Nat.sub_le _ _) hlt
  have hscan : touched start stop i = scan i j stop := by
    refine touched_eq_scan fun k hk => ?_
    rw [hpt]
    omega
  obtain ⟨s1, hrun1, hex1⟩ := exitPass_spec h hd hb hi hj hfirst
  rw [hd1, hd0, exitPd1, Proc.bind_ok hrun1]
  by_cases hnext : i * pdsize + pdsize ≠ 0 ∧ i * pdsize + pdsize < stop
  · -- the area goes on below the second entry
    obtain rfl : i = 0 := by
      have h2 := hnext.2
      rw [hpg] at h2
      omega
    have hlt1 : 1 * pdsize + 0 * ptsize < stop := by
      have h2 := hnext.2
      omega
    have hscan1 : touched start stop 1 = scan 1 0 stop := by
      refine touched_eq_scan fun k hk => ?_
      rw [hpt]
      omega
    obtain ⟨s2, hrun2, hex2⟩ := exitPass_spec hex1.trees hd (hex1.blank hd hb) (by decide : 1 < 2)
      (by decide : 0 < 512) hlt1
    have hcur : 0 * pdsize + pdsize = 1 * pdsize := by omega
    have hcur' : 1 * pdsize = 1 * pdsize + 0 * ptsize := by omega
    have hend : ¬ (1 * pdsize + pdsize ≠ 0 ∧ 1 * pdsize + pdsize < stop) := by
      rw [hpg]
      omega
    refine ⟨s2, ?_, ?_⟩
    · rw [if_pos hnext, hcur, exitPd1]
      have hrun2' : exitPass d stop (1 * pdsize) (1 * pdsize) s1 = .ok () s2 := hcur' ▸ hrun2
      rw [Proc.bind_ok hrun2', if_neg hend]
      rfl
    · have hps : rangePasses start stop = [(0, scan 0 j stop), (1, scan 1 0 stop)] := by
        show List.filter _ [(0, touched start stop 0), (1, touched start stop 1)] = _
        have hne : (scan 0 j stop).Nonempty := scan_nonempty hj hfirst
        have hne1 : (scan 1 0 stop).Nonempty := scan_nonempty (by decide) hlt1
        simp [hscan, hscan1, hne, hne1]
      rw [hps]
      exact .cons hi hex1 (.cons (by decide) hex2 .nil)
  · refine ⟨s1, ?_, ?_⟩
    · rw [if_neg hnext]
      rfl
    · have hother : ∀ k < 2, k ≠ i → touched start stop k = ∅ := by
        intro k hk hne
        refine Finset.eq_empty_of_forall_notMem fun x hx => ?_
        rw [touched, Finset.mem_filter, Finset.mem_range, hpt] at hx
        rw [hpg] at hnext
        omega
      have hps : rangePasses start stop = [(i, scan i j stop)] := by
        show List.filter _ [(0, touched start stop 0), (1, touched start stop 1)] = _
        have hne : (scan i j stop).Nonempty := scan_nonempty hj hfirst
        obtain rfl | rfl : i = 0 ∨ i = 1 := by omega
        · simp [hscan, hother 1 (by decide) (by decide), hne]
        · simp [hscan, hother 0 (by decide) (by decide), hne]
      rw [hps]
      exact .cons hi hex1 .nil

end Ucore
