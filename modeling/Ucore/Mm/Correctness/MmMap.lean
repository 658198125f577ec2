import Mathlib.Data.List.TakeWhile
import Ucore.Mm.Correctness.VmRun

/-!
# `Mm.Correctness.MmMap` — when `mm_map` does its work

`mm_map` asks `find_vma` about the first address of the range only, and leaves the other end to the assertions of
`insert_vma_struct`. So a range that begins outside of all areas and reaches into one is not refused. The end of
the range is computed modulo `2 ^ 64`, and a range that wraps may be taken for a small one.
-/

namespace Ucore

variable {s s' : Vm} {m addr len start stop : Nat} {v : Vma} {flags : VmFlags} {x : Mm}

/-! ## Areas and ranges -/

/-- The area and the range have an address in common. -/
def Vma.Overlaps (v : Vma) (start stop : Nat) : Prop := start < v.vmEnd ∧ v.vmStart < stop

/-- A user range apart from all areas. -/
def Mm.Free (x : Mm) (start stop : Nat) : Prop :=
  UserAccess start stop ∧ ∀ v ∈ x.mmapList, ¬ v.Overlaps start stop

theorem Vma.Contains.overlaps (h : v.Contains start) (hlt : start < stop) : v.Overlaps start stop :=
  ⟨h.2, lt_of_le_of_lt h.1 hlt⟩

/-- The areas before the place of `v` begin no later than `v` does. -/
theorem Mm.split_before {w : Vma} (hw : w ∈ (x.split v).1) : w.vmStart ≤ v.vmStart := by
  rw [Mm.split, List.span_eq_takeWhile_dropWhile] at hw
  have hp := List.mem_takeWhile_imp (p := fun a : Vma => decide (a.vmStart ≤ v.vmStart)) hw
  exact of_decide_eq_true hp

/-- The first area behind the place of `v` begins later than `v` does. -/
theorem Mm.split_behind {w : Vma} (hw : (x.split v).2.head? = some w) : v.vmStart < w.vmStart := by
  rw [Mm.split, List.span_eq_takeWhile_dropWhile] at hw
  have hne := List.head?_dropWhile_not (fun a : Vma => decide (a.vmStart ≤ v.vmStart)) x.mmapList
  rw [hw] at hne
  have hnot := of_decide_eq_false hne
  omega

/-- An area fits if and only if it overlaps none. -/
theorem Mm.Sorted.fits_iff (h : x.Sorted) (hlt : v.vmStart < v.vmEnd) :
    x.Fits v ↔ ∀ w ∈ x.mmapList, ¬ w.Overlaps v.vmStart v.vmEnd := by
  constructor
  · intro hf w hw hover
    obtain ⟨hlo, hhi⟩ := hover
    -- in the list with `v` in its place, `w` is on one side of `v`
    have hsorted : ((x.split v).1 ++ v :: (x.split v).2).Pairwise fun a b => a.vmEnd ≤ b.vmStart := (h.insert hf).sorted
    rw [List.pairwise_append] at hsorted
    obtain ⟨-, hright, hleft⟩ := hsorted
    rw [← x.split_append v, List.mem_append] at hw
    rcases hw with hw | hw
    · have hle := hleft w hw v List.mem_cons_self
      omega
    · have hle := List.rel_of_pairwise_cons hright hw
      omega
  · intro hno
    have hmem1 : ∀ w ∈ (x.split v).1, w ∈ x.mmapList := by
      intro w hw
      rw [← x.split_append v]
      exact List.mem_append_left _ hw
    have hmem2 : ∀ w ∈ (x.split v).2, w ∈ x.mmapList := by
      intro w hw
      rw [← x.split_append v]
      exact List.mem_append_right _ hw
    refine ⟨hlt, ?_, ?_⟩
    · intro a ha
      have hin := List.mem_of_getLast? ha
      have hle := Mm.split_before hin
      by_contra hover
      exact hno a (hmem1 a hin) ⟨by omega, by omega⟩
    · intro b hb
      have hin := List.mem_of_mem_head? hb
      have hlater := Mm.split_behind hb
      have hne := h.nonempty b (hmem2 b hin)
      by_contra hover
      exact hno b (hmem2 b hin) ⟨by omega, by omega⟩

/-! ## The assertions of `insert_vma_struct` -/

theorem checkVmaOverlap_run {a b : Vma} (ha : a.vmStart < a.vmEnd) (hab : a.vmEnd ≤ b.vmStart) (hb : b.vmStart < b.vmEnd)
    (s : Vm) : checkVmaOverlap a b s = .ok () s := by
  rw [checkVmaOverlap, Proc.check_bind_pos ha, Proc.check_bind_pos hab, Proc.check_run_pos hb]

/-- An area that fits passes them all. -/
theorem insertVmaStruct_fits (h : (s.mm m).Sorted) (hf : (s.mm m).Fits v) :
    insertVmaStruct m v s = .ok () (s.setMm m ((s.mm m).insert v)) := by
  obtain ⟨hlt, hprev, hnext⟩ := hf
  have hc1 : checkPrev ((s.mm m).split v).1.getLast? v s = .ok () s := by
    cases ha : ((s.mm m).split v).1.getLast? with
    | none => rfl
    | some a =>
      have hin : a ∈ (s.mm m).mmapList := by
        rw [← (s.mm m).split_append v]
        exact List.mem_append_left _ (List.mem_of_getLast? ha)
      exact checkVmaOverlap_run (h.nonempty a hin) (hprev a ha) hlt s
  have hc2 : checkNext v ((s.mm m).split v).2.head? s = .ok () s := by
    cases hb : ((s.mm m).split v).2.head? with
    | none => rfl
    | some b =>
      have hin : b ∈ (s.mm m).mmapList := by
        rw [← (s.mm m).split_append v]
        exact List.mem_append_right _ (List.mem_of_mem_head? hb)
      exact checkVmaOverlap_run hlt (hnext b hb) (h.nonempty b hin) s
  rw [insertVmaStruct, Proc.check_bind_pos hlt, Proc.get_bind, Proc.bind_ok hc1, Proc.bind_ok hc2]
  rfl

/-- An area that does not fit fails one of them. -/
theorem insertVmaStruct_unfit (hf : ¬ (s.mm m).Fits v) : ∃ p, insertVmaStruct m v s = .panic p := by
  have hmeets := insertVmaStruct_meets m v s
  cases hrun : insertVmaStruct m v s with
  | ok u s' => exact absurd (hmeets.of_ok hrun).2 hf
  | err e s' => exact (hmeets.of_err hrun).elim
  | panic p => exact ⟨p, rfl⟩

/-! ## What `mm_map` is meant to do -/

/-- The page-rounded range, as numbers: nothing wraps. -/
def mapStart (addr : Nat) : Nat := rounddown addr pgsize

def mapStop (addr len : Nat) : Nat := rounddown (addr + len + pgsize - 1) pgsize

/-- The end that `mm_map` computes. -/
def mapEnd (addr len : Nat) : Nat := roundup ((addr + len) % 2 ^ 64) pgsize

/-- No area is different; only another one of them may be in the cache. -/
structure Vm.SameAreas (s s' : Vm) (m : Nat) : Prop where
  mem : s'.mem = s.mem
  others : ∀ m', m' ≠ m → s'.mm m' = s.mm m'
  list : (s'.mm m).mmapList = (s.mm m).mmapList
  pgdir : (s'.mm m).pgdir = (s.mm m).pgdir
  mapCount : (s'.mm m).mapCount = (s.mm m).mapCount
  mmCount : (s'.mm m).mmCount = (s.mm m).mmCount
  sorted : (s'.mm m).Sorted

/-- One more area in the list, which is as sorted and disjoint as before. -/
structure Vm.MoreAreas (s s' : Vm) (m start stop : Nat) (flags : VmFlags) : Prop where
  mem : s'.mem = s.mem
  others : ∀ m', m' ≠ m → s'.mm m' = s.mm m'
  list : ∃ (v : Vma) (l1 l2 : List Vma), v.vmStart = start ∧ v.vmEnd = stop ∧ v.vmFlags = flags ∧
    (s.mm m).mmapList = l1 ++ l2 ∧ (s'.mm m).mmapList = l1 ++ v :: l2
  pgdir : (s'.mm m).pgdir = (s.mm m).pgdir
  mapCount : (s'.mm m).mapCount = (s.mm m).mapCount + 1
  mmCount : (s'.mm m).mmCount = (s.mm m).mmCount
  sorted : (s'.mm m).Sorted

/-- `mm_map` adds the area, or fails with the error that fits; there is no other error, and no assertion fails. -/
def MapsRight (s : Vm) (m addr len : Nat) (flags : VmFlags) : Prop :=
  (mmMap m addr len flags s).Meets
    (fun _ s' => (s.mm m).Free (mapStart addr) (mapStop addr len) ∧
      s.MoreAreas s' m (mapStart addr) (mapStop addr len) flags)
    (fun e s' => s.SameAreas s' m ∧
      (e = -eInval ∧ ¬ (s.mm m).Free (mapStart addr) (mapStop addr len) ∨
        e = -eNoMem ∧ (s.mm m).Free (mapStart addr) (mapStop addr len)))
    fun _ => False

/-- A range that is accepted, and begins outside of all areas, reaches into none of them and does not wrap. -/
def RangeApart (x : Mm) (addr len : Nat) : Prop :=
  UserAccess (mapStart addr) (mapEnd addr len) → (∀ v ∈ x.mmapList, ¬ v.Contains (mapStart addr)) →
    (∀ v ∈ x.mmapList, ¬ (mapStart addr ≤ v.vmStart ∧ v.vmStart < mapEnd addr len)) ∧ addr + len < 2 ^ 64

/-! ## The ends of the range -/

/-- Where the sum does not wrap, both ends say the same about the range. -/
theorem mapEnd_user (hsum : addr + len < 2 ^ 64) (h : UserAccess start (mapEnd addr len) ∨ UserAccess start (mapStop addr len)) :
    mapEnd addr len = mapStop addr len := by
  have hmod : (addr + len) % 2 ^ 64 = addr + len := Nat.mod_eq_of_lt hsum
  by_cases hround : addr + len + 4096 - 1 < 2 ^ 64
  · rw [mapEnd, roundup, hmod, mapStop]
    show rounddown ((addr + len + 4096 - 1) % 2 ^ 64) 4096 = rounddown (addr + len + 4096 - 1) 4096
    rw [Nat.mod_eq_of_lt hround]
  · -- the last page of the address space: neither end is one of a user range
    exfalso
    rcases h with ⟨-, hlt, -⟩ | ⟨-, -, htop⟩
    · have hzero : mapEnd addr len = 0 := by
        rw [mapEnd, roundup, hmod]
        show (addr + len + 4096 - 1) % 2 ^ 64 - (addr + len + 4096 - 1) % 2 ^ 64 % 4096 = 0
        omega
      omega
    · have hle : (addr + len + 4096 - 1) - (addr + len + 4096 - 1) % 4096 ≤ 2 ^ 31 := htop
      omega

/-- A sum that wraps is the end of no user range. -/
theorem mapStop_wraps (hsum : ¬ addr + len < 2 ^ 64) : ¬ UserAccess start (mapStop addr len) := by
  rintro ⟨-, -, htop⟩
  have hle : (addr + len + 4096 - 1) - (addr + len + 4096 - 1) % 4096 ≤ 2 ^ 31 := htop
  omega

/-! ## The cases of `mm_map` -/

theorem Vm.SameAreas.refl (h : (s.mm m).Sorted) : s.SameAreas s m := ⟨rfl, fun _ _ => rfl, rfl, rfl, rfl, rfl, h⟩

theorem Vm.SameAreas.trans {s1 s2 : Vm} (h : s.SameAreas s1 m) (h' : s1.SameAreas s2 m) : s.SameAreas s2 m :=
  ⟨h'.mem.trans h.mem, fun m' hne => (h'.others m' hne).trans (h.others m' hne), h'.list.trans h.list, h'.pgdir.trans h.pgdir,
    h'.mapCount.trans h.mapCount, h'.mmCount.trans h.mmCount, h'.sorted⟩

/-- A lookup changes the cache only. -/
theorem Vm.SameAreas.found (h : (s.mm m).Sorted) (addr : Nat) : s.SameAreas (s.setMm m ((s.mm m).found addr)) m := by
  have hself : (s.setMm m ((s.mm m).found addr)).mm m = (s.mm m).found addr := Function.update_self ..
  have hcount : ((s.mm m).found addr).mapCount = (s.mm m).mapCount := by
    rw [Mm.found]
    split
    · rfl
    · rfl
  obtain ⟨hlist, hpgdir, hmm⟩ := (s.mm m).found_same addr
  refine ⟨rfl, fun m' hne => Function.update_of_ne hne _ _, ?_, ?_, ?_, ?_, ?_⟩
  · rw [hself, hlist]
  · rw [hself, hpgdir]
  · rw [hself, hcount]
  · rw [hself, hmm]
  · rw [hself]
    exact h.found addr

/-- An area fits into a free range, and is the one more. -/
theorem Vm.SameAreas.insert {s1 : Vm} (h : s.SameAreas s1 m) (hfree : (s.mm m).Free start stop) (p : Nat) (flags : VmFlags) :
    (s1.mm m).Fits { obj := p, vmStart := start, vmEnd := stop, vmFlags := flags } ∧
      s.MoreAreas (s1.setMm m ((s1.mm m).insert { obj := p, vmStart := start, vmEnd := stop, vmFlags := flags }))
        m start stop flags := by
  obtain ⟨hac, hno⟩ := hfree
  have hfits : (s1.mm m).Fits { obj := p, vmStart := start, vmEnd := stop, vmFlags := flags } := by
    refine (h.sorted.fits_iff hac.2.1).mpr ?_
    rw [h.list]
    exact hno
  generalize hv : ({ obj := p, vmStart := start, vmEnd := stop, vmFlags := flags } : Vma) = v at hfits ⊢
  have hself : (s1.setMm m ((s1.mm m).insert v)).mm m = (s1.mm m).insert v := Function.update_self ..
  refine ⟨hfits, h.mem, ?_, ?_, ?_, ?_, ?_, ?_⟩
  · intro m' hne
    exact (Function.update_of_ne hne _ _).trans (h.others m' hne)
  · refine ⟨v, ((s1.mm m).split v).1, ((s1.mm m).split v).2, ?_, ?_, ?_, ?_, ?_⟩
    · rw [← hv]
    · rw [← hv]
    · rw [← hv]
    · rw [← h.list, Mm.split_append]
    · rw [hself]
      rfl
  · rw [hself, ← h.pgdir]
    rfl
  · rw [hself, ← h.mapCount]
    rfl
  · rw [hself, ← h.mmCount]
    rfl
  · rw [hself]
    exact h.sorted.insert hfits

/-- What a call to `vma_create` returns, and what it leaves behind. -/
theorem Vm.SameAreas.create {s1 : Vm} (h : s.SameAreas s1 m) (start stop : Nat) (flags : VmFlags) :
    (∃ s2, vmaCreate start stop flags s1 = .ok none s2 ∧ s.SameAreas s2 m) ∨
      ∃ p s2, vmaCreate start stop flags s1 = .ok (some { obj := p, vmStart := start, vmEnd := stop, vmFlags := flags }) s2 ∧
        s.SameAreas s2 m := by
  rcases vmaCreate_cases start stop flags s1 with hc | ⟨p, -, hc⟩
  · exact .inl ⟨_, hc, h.mem, h.others, h.list, h.pgdir, h.mapCount, h.mmCount, h.sorted⟩
  · exact .inr ⟨p, _, hc, h.mem, h.others, h.list, h.pgdir, h.mapCount, h.mmCount, h.sorted⟩

theorem mmMapInsert_free {s1 : Vm} (h : s.SameAreas s1 m) (hfree : (s.mm m).Free start stop) (flags : VmFlags) :
    (∃ s2, mmMapInsert m start stop flags s1 = .err (-eNoMem) s2 ∧ s.SameAreas s2 m) ∨
      ∃ s2, mmMapInsert m start stop flags s1 = .ok () s2 ∧ s.MoreAreas s2 m start stop flags := by
  rw [mmMapInsert]
  rcases h.create start stop flags with ⟨s2, hc, h2⟩ | ⟨p, s2, hc, h2⟩
  · rw [Proc.bind_ok hc]
    exact .inl ⟨s2, rfl, h2⟩
  · rw [Proc.bind_ok hc]
    obtain ⟨hfits, hmore⟩ := h2.insert hfree p flags
    exact .inr ⟨_, insertVmaStruct_fits h2.sorted hfits, hmore⟩

/-- Behind the lookup there is no `-E_INVAL` any more. -/
theorem mmMapInsert_err {s1 s2 : Vm} {e : Int} (h : mmMapInsert m start stop flags s1 = .err e s2) : e = -eNoMem := by
  rw [mmMapInsert] at h
  rcases vmaCreate_cases start stop flags s1 with hc | ⟨p, -, hc⟩
  · rw [Proc.bind_ok hc] at h
    injection h with he _
    exact he.symm
  · rw [Proc.bind_ok hc] at h
    exact ((insertVmaStruct_meets m _ _).of_err h).elim

theorem mmMapRange_refused (hac : ¬ UserAccess start stop) : mmMapRange m start stop flags s = .err (-eInval) s := by
  rw [mmMapRange, if_pos hac]
  rfl

/-- A range that begins in an area. -/
theorem mmMapRange_inside (h : (s.mm m).Sorted) (hac : UserAccess start stop) (hin : ∃ v ∈ (s.mm m).mmapList, v.Contains start)
    (flags : VmFlags) :
    ∃ s1, mmMapRange m start stop flags s = .err (-eInval) s1 ∧ s.SameAreas s1 m := by
  refine ⟨_, ?_, Vm.SameAreas.found h start⟩
  rw [mmMapRange, if_neg (not_not_intro hac), Proc.bind_ok (findVma_run m start s)]
  cases hfind : (s.mm m).findVma start with
  | none =>
    obtain ⟨w, hw, hcon⟩ := hin
    exact absurd hcon (Mm.find_none hfind hw)
  | some v =>
    have hlt : stop > v.vmStart := lt_of_le_of_lt (h.find_some hfind).2.1 hac.2.1
    show (if stop > v.vmStart then Proc.fail (-eInval) else mmMapInsert m start stop flags : VmM Unit) _ = _
    rw [if_pos hlt]
    rfl

/-- A range that begins outside of all areas is not looked at any more. -/
theorem mmMapRange_outside (h : (s.mm m).Sorted) (hac : UserAccess start stop)
    (hout : ∀ v ∈ (s.mm m).mmapList, ¬ v.Contains start) (flags : VmFlags) :
    ∃ s1, mmMapRange m start stop flags s = mmMapInsert m start stop flags s1 ∧ s.SameAreas s1 m := by
  refine ⟨_, ?_, Vm.SameAreas.found h start⟩
  rw [mmMapRange, if_neg (not_not_intro hac), Proc.bind_ok (findVma_run m start s)]
  cases hfind : (s.mm m).findVma start with
  | none => rfl
  | some v =>
    obtain ⟨hmem, hcon⟩ := h.find_some hfind
    exact absurd hcon (hout v hmem)

/-- **A call that returns** has found a free range, and has added it. -/
theorem mmMap_ok (h : (s.mm m).Sorted) (hrun : mmMap m addr len flags s = .ok () s') :
    (s.mm m).Free (mapStart addr) (mapEnd addr len) ∧ s.MoreAreas s' m (mapStart addr) (mapEnd addr len) flags := by
  have hrun' : mmMapRange m (mapStart addr) (mapEnd addr len) flags s = .ok () s' := hrun
  by_cases hac : UserAccess (mapStart addr) (mapEnd addr len)
  · by_cases hin : ∃ v ∈ (s.mm m).mmapList, v.Contains (mapStart addr)
    · obtain ⟨s1, hrefused, -⟩ := mmMapRange_inside h hac hin flags
      rw [hrefused] at hrun'
      cases hrun'
    · have hout : ∀ v ∈ (s.mm m).mmapList, ¬ v.Contains (mapStart addr) := fun v hv hcon => hin ⟨v, hv, hcon⟩
      obtain ⟨s1, hins, h1⟩ := mmMapRange_outside h hac hout flags
      rw [hins, mmMapInsert] at hrun'
      rcases h1.create (mapStart addr) (mapEnd addr len) flags with ⟨s2, hc, h2⟩ | ⟨p, s2, hc, h2⟩
      · rw [Proc.bind_ok hc] at hrun'
        cases hrun'
      · rw [Proc.bind_ok hc] at hrun'
        obtain ⟨rfl, hfits⟩ := (insertVmaStruct_meets m _ s2).of_ok hrun'
        have hfree : (s.mm m).Free (mapStart addr) (mapEnd addr len) := by
          refine ⟨hac, ?_⟩
          rw [← h2.list]
          exact (h2.sorted.fits_iff hac.2.1).mp hfits
        exact ⟨hfree, (h2.insert hfree p flags).2⟩
  · rw [mmMapRange_refused hac] at hrun'
    cases hrun'

/-! ## The exact condition -/

/-- Where no area contains the first address, the areas that overlap are those that begin in the range. -/
theorem begins_of_overlaps (hout : ¬ v.Contains start) (hov : v.Overlaps start stop) : start ≤ v.vmStart ∧ v.vmStart < stop := by
  obtain ⟨hlo, hhi⟩ := hov
  refine ⟨?_, hhi⟩
  by_contra hlt
  exact hout ⟨by omega, hlo⟩

/-- A range that is not free, and gets past the lookup, is not refused: it is mapped, or an assertion fails, or the
error is the other one. -/
theorem mmMapInsert_wrong {s1 : Vm} (hnot : ¬ (s.mm m).Free (mapStart addr) (mapStop addr len))
    (hrun : mmMap m addr len flags s = mmMapInsert m start stop flags s1) : ¬ MapsRight s m addr len flags := by
  rw [MapsRight, hrun]
  intro hright
  cases hi : mmMapInsert m start stop flags s1 with
  | ok u s2 => exact hnot (hright.of_ok hi).1
  | err e s2 =>
    obtain ⟨-, ⟨he, -⟩ | ⟨-, hfree⟩⟩ := hright.of_err hi
    · rw [mmMapInsert_err hi] at he
      exact absurd he (by decide)
    · exact hnot hfree
  | panic p => exact hright.of_panic hi

/-- **`mm_map`** does what it is meant to do if and only if the range is refused, or begins in an area, or reaches
into none. -/
theorem mmMap_right_iff (s : Vm) (m addr len : Nat) (flags : VmFlags) (hsorted : (s.mm m).Sorted) :
    MapsRight s m addr len flags ↔ RangeApart (s.mm m) addr len := by
  have hrun : mmMap m addr len flags = mmMapRange m (mapStart addr) (mapEnd addr len) flags := rfl
  by_cases hac : UserAccess (mapStart addr) (mapEnd addr len)
  · by_cases hin : ∃ v ∈ (s.mm m).mmapList, v.Contains (mapStart addr)
    · -- `find_vma` finds the area
      obtain ⟨v, hv, hcon⟩ := hin
      refine iff_of_true ?_ fun _ hout => absurd hcon (hout v hv)
      obtain ⟨s1, hr, hsame⟩ := mmMapRange_inside hsorted hac ⟨v, hv, hcon⟩ flags
      rw [MapsRight, hrun, hr]
      refine ⟨hsame, .inl ⟨rfl, ?_⟩⟩
      rintro ⟨huser, hno⟩
      exact hno v hv (hcon.overlaps huser.2.1)
    · have hout : ∀ v ∈ (s.mm m).mmapList, ¬ v.Contains (mapStart addr) := fun v hv hcon => hin ⟨v, hv, hcon⟩
      obtain ⟨s1, hr, hsame⟩ := mmMapRange_outside hsorted hac hout flags
      by_cases hsum : addr + len < 2 ^ 64
      · have hend := mapEnd_user hsum (.inl hac)
        rw [hend] at hac hr
        by_cases hno : ∀ v ∈ (s.mm m).mmapList, ¬ v.Overlaps (mapStart addr) (mapStop addr len)
        · refine iff_of_true ?_ ?_
          · rw [MapsRight, hrun, hend, hr]
            rcases mmMapInsert_free hsame ⟨hac, hno⟩ flags with ⟨s2, hi, h2⟩ | ⟨s2, hi, h2⟩
            · rw [hi]
              exact ⟨h2, .inr ⟨rfl, hac, hno⟩⟩
            · rw [hi]
              exact ⟨⟨hac, hno⟩, h2⟩
          · intro _ _
            refine ⟨?_, hsum⟩
            rintro v hv ⟨hlo, hhi⟩
            rw [hend] at hhi
            have hne := hsorted.nonempty v hv
            exact hno v hv ⟨by omega, hhi⟩
        · -- an area begins in the range
          push Not at hno
          obtain ⟨v, hv, hov⟩ := hno
          have hnot : ¬ (s.mm m).Free (mapStart addr) (mapStop addr len) := fun hfree => hfree.2 v hv hov
          refine iff_of_false (mmMapInsert_wrong hnot (by rw [hrun, hend, hr])) ?_
          intro happart
          rw [RangeApart, hend] at happart
          exact (happart hac hout).1 v hv (begins_of_overlaps (hout v hv) hov)
      · -- the sum wraps: a range that is no user range is taken for one
        have hnot : ¬ (s.mm m).Free (mapStart addr) (mapStop addr len) := fun hfree => mapStop_wraps hsum hfree.1
        refine iff_of_false (mmMapInsert_wrong hnot (by rw [hrun, hr])) ?_
        intro happart
        exact hsum (happart hac hout).2
  · refine iff_of_true ?_ fun huser => absurd huser hac
    rw [MapsRight, hrun, mmMapRange_refused hac]
    refine ⟨.refl hsorted, .inl ⟨rfl, ?_⟩⟩
    rintro ⟨huser, -⟩
    by_cases hsum : addr + len < 2 ^ 64
    · rw [← mapEnd_user hsum (.inr huser)] at huser
      exact hac huser
    · exact mapStop_wraps hsum huser

/-! ## A range that encloses an area -/

/-- `VM_READ | VM_WRITE` -/
def dataFlags : VmFlags := { read := true, write := true, exec := false, stack := false }

/-- An address space without areas: its `mm_struct` is the object `1`. -/
def noAreas : Vm :=
  { mem := eightPages, mm := fun _ => .empty, live := {1}, kpick := fun n => some (n + 2), kticks := 0 }

/-- One segment of one page, at `0x400000`. -/
def oneArea : Vm :=
  (noAreas.ktake 2).setMm 1 (Mm.empty.insert { obj := 2, vmStart := 0x400000, vmEnd := 0x401000, vmFlags := dataFlags })

theorem mmMap_oneArea : mmMap 1 0x400000 0x1000 dataFlags noAreas = .ok () oneArea := by
  have hend : mapEnd 0x400000 0x1000 = 0x401000 := by decide
  have hfind := findVma_run 1 (mapStart 0x400000) noAreas
  have hsame : noAreas.setMm 1 ((noAreas.mm 1).found (mapStart 0x400000)) = noAreas := by
    rw [Vm.setMm, show (noAreas.mm 1).found (mapStart 0x400000) = noAreas.mm 1 from rfl, Function.update_eq_self]
  rw [hsame] at hfind
  show mmMapRange 1 (mapStart 0x400000) (mapEnd 0x400000 0x1000) dataFlags noAreas = _
  rw [mmMapRange, if_neg (by decide), Proc.bind_ok hfind]
  rfl

theorem oneArea_sorted : (oneArea.mm 1).Sorted := by
  have hself : oneArea.mm 1 = Mm.empty.insert { obj := 2, vmStart := 0x400000, vmEnd := 0x401000, vmFlags := dataFlags } :=
    Function.update_self 1 _ noAreas.mm
  rw [hself]
  refine ⟨?_, ?_, ?_⟩
  · intro v hv
    obtain rfl := List.mem_singleton.mp hv
    decide
  · exact List.pairwise_singleton _ _
  · intro v hv
    exact nomatch hv

/-- The second segment of a file, of `0x300000` bytes at `0x200000`, encloses the first one. -/
theorem mmMap_encloses : mmMap 1 0x400000 0x1000 dataFlags noAreas = .ok () oneArea ∧ (oneArea.mm 1).Sorted ∧
    mmMap 1 0x200000 0x300000 dataFlags oneArea = .panic .vmaOverlap ∧ ¬ MapsRight oneArea 1 0x200000 0x300000 dataFlags := by
  have hrun : mmMap 1 0x200000 0x300000 dataFlags oneArea = .panic .vmaOverlap := rfl
  refine ⟨mmMap_oneArea, oneArea_sorted, hrun, ?_⟩
  rw [MapsRight, hrun]
  exact fun hf => hf

/-- A segment behind the first one. -/
theorem mmMap_right_behind : MapsRight oneArea 1 0x401000 0x2000 dataFlags := by
  refine (mmMap_right_iff oneArea 1 0x401000 0x2000 dataFlags oneArea_sorted).mpr ?_
  intro _ _
  decide

end Ucore
