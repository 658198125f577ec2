import Ucore.Lib.Run
import Ucore.Mm.Vmm
import Ucore.Mm.Correctness.RefRun
import Ucore.Mm.Correctness.Copy

/-!
# `Mm.Correctness.VmRun` — address spaces over whole runs

Any number of address spaces are built side by side: areas are mapped, pages are mapped inside of areas, and one
address space is copied into another. `Vm.Inv` holds in every state reached: the areas are intervals of user
pages, and every valid page table entry belongs to an area.
-/

namespace Ucore

open PageMem

/-- An area of user pages. -/
def Vma.Ok (v : Vma) : Prop := v.vmStart % pgsize = 0 ∧ v.vmEnd % pgsize = 0 ∧ UserAccess v.vmStart v.vmEnd

/-- Page `n` lies in the area. -/
def Vma.Has (v : Vma) (n : Nat) : Prop := InRange v.vmStart v.vmEnd n

/-- The areas are sorted and do not overlap, and the cached one is one of them. -/
structure Mm.Wf (x : Mm) : Prop where
  ok : ∀ v ∈ x.mmapList, v.Ok
  sorted : x.mmapList.Pairwise fun a b => a.vmEnd ≤ b.vmStart
  cached : ∀ v, x.mmapCache = some v → v ∈ x.mmapList

/-- The part of this that does not speak of pages. -/
structure Mm.Sorted (x : Mm) : Prop where
  nonempty : ∀ v ∈ x.mmapList, v.vmStart < v.vmEnd
  sorted : x.mmapList.Pairwise fun a b => a.vmEnd ≤ b.vmStart
  cached : ∀ v, x.mmapCache = some v → v ∈ x.mmapList

theorem Mm.Wf.toSorted {x : Mm} (h : x.Wf) : x.Sorted := ⟨fun v hv => (h.ok v hv).2.2.2.1, h.sorted, h.cached⟩

/-- The directories of the address spaces in `M`. -/
def Vm.dirs (s : Vm) (M : Finset Nat) : Finset Nat := M.image fun m => (s.mm m).pgdir

/-- **The invariant.** -/
structure Vm.Inv (s : Vm) (M : Finset Nat) (L : Nat → Prop) : Prop where
  sound : Sound s.mem (s.dirs M) L
  inj : ∀ m ∈ M, ∀ m' ∈ M, (s.mm m).pgdir = (s.mm m').pgdir → m = m'
  live : ∀ m ∈ M, m ∈ s.live
  count : ∀ m ∈ M, (s.mm m).mmCount = 0
  wf : ∀ m ∈ M, (s.mm m).Wf
  inside : ∀ m ∈ M, ∀ n, n < userPages → s.mem.maps (s.mm m).pgdir n ≠ none → ∃ v ∈ (s.mm m).mmapList, v.Has n

variable {s s' s1 : Vm} {M : Finset Nat} {m m' dst src addr len la : Nat} {v : Vma} {flags : VmFlags} {perm : Perm}
  {boot : Nat → Pte} {R L : Nat → Prop} {mem : PageMem}

theorem Vm.mem_dirs (hm : m ∈ M) : (s.mm m).pgdir ∈ s.dirs M := Finset.mem_image_of_mem _ hm

theorem Vma.Ok.page_lt (h : v.Ok) {n : Nat} (hn : v.Has n) : n < userPages := by
  have htop : v.vmEnd ≤ 2 ^ 31 := h.2.2.2.2
  have hlt : n * 2 ^ 12 < v.vmEnd := hn.2
  show n < 2 ^ 19
  omega

/-- The page of an address in the area. -/
theorem Vma.Ok.has (h : v.Ok) (hla : v.Contains la) : v.Has (la / pgsize) := by
  have hal : v.vmStart % 2 ^ 12 = 0 := h.1
  have hal' : v.vmEnd % 2 ^ 12 = 0 := h.2.1
  obtain ⟨hlo, hhi⟩ := hla
  constructor
  · show v.vmStart ≤ la / 2 ^ 12 * 2 ^ 12
    omega
  · show la / 2 ^ 12 * 2 ^ 12 < v.vmEnd
    omega

/-! ## Steps that leave the pages alone -/

theorem Vm.dirs_congr (h : ∀ m ∈ M, (s'.mm m).pgdir = (s.mm m).pgdir) : s'.dirs M = s.dirs M :=
  Finset.image_congr fun m hm => h m hm

/-- Areas may be added. -/
theorem Vm.Inv.extend (h : s.Inv M L) (hmem : s'.mem = s.mem) (hlive : ∀ p, p ∈ s.live → p ∈ s'.live)
    (hpgdir : ∀ m ∈ M, (s'.mm m).pgdir = (s.mm m).pgdir) (hcount : ∀ m ∈ M, (s'.mm m).mmCount = (s.mm m).mmCount)
    (hold : ∀ m ∈ M, ∀ v ∈ (s.mm m).mmapList, v ∈ (s'.mm m).mmapList) (hwf : ∀ m ∈ M, (s'.mm m).Wf) :
    s'.Inv M L where
  sound := by
    rw [hmem, Vm.dirs_congr hpgdir]
    exact h.sound
  inj := by
    intro m hm m' hm' heq
    rw [hpgdir m hm, hpgdir m' hm'] at heq
    exact h.inj m hm m' hm' heq
  live m hm := hlive m (h.live m hm)
  count m hm := (hcount m hm).trans (h.count m hm)
  wf := hwf
  inside := by
    intro m hm n hn hmap
    rw [hmem, hpgdir m hm] at hmap
    obtain ⟨v, hv, hhas⟩ := h.inside m hm n hn hmap
    exact ⟨v, hold m hm v hv, hhas⟩

/-- One address space gets other areas. -/
theorem Vm.Inv.setMm (h : s.Inv M L) (m : Nat) {x : Mm} (hpgdir : x.pgdir = (s.mm m).pgdir)
    (hcount : x.mmCount = (s.mm m).mmCount) (hold : ∀ v ∈ (s.mm m).mmapList, v ∈ x.mmapList)
    (hwf : (s.mm m).Wf → x.Wf) : (s.setMm m x).Inv M L := by
  have hcases : ∀ P : Nat → Mm → Prop, (m ∈ M → P m x) → (∀ m' ∈ M, P m' (s.mm m')) →
      ∀ m' ∈ M, P m' ((s.setMm m x).mm m') := by
    intro P hx hs m' hm'
    show P m' (Function.update s.mm m x m')
    by_cases hm : m' = m
    · subst hm
      rw [Function.update_self]
      exact hx hm'
    · rw [Function.update_of_ne hm]
      exact hs m' hm'
  refine h.extend rfl (fun _ hp => hp) ?_ ?_ ?_ ?_
  · exact hcases (fun m' y => y.pgdir = (s.mm m').pgdir) (fun _ => hpgdir) fun _ _ => rfl
  · exact hcases (fun m' y => y.mmCount = (s.mm m').mmCount) (fun _ => hcount) fun _ _ => rfl
  · exact hcases (fun m' y => ∀ v ∈ (s.mm m').mmapList, v ∈ y.mmapList) (fun _ => hold) fun _ _ _ hv => hv
  · exact hcases (fun _ y => y.Wf) (fun hm => hwf (h.wf m hm)) h.wf

theorem kmalloc_none {s : Vm} (h : ∀ p, s.kpick s.kticks = some p → p ∈ s.live) : kmalloc s = .ok none s.ktick := by
  rw [kmalloc, Proc.get_bind]
  cases hpick : s.kpick s.kticks with
  | none => rfl
  | some p =>
    simp only [if_pos (h p hpick)]
    rfl

theorem kmalloc_some {s : Vm} {p : Nat} (hpick : s.kpick s.kticks = some p) (hp : p ∉ s.live) :
    kmalloc s = .ok (some p) (s.ktake p) := by
  rw [kmalloc, Proc.get_bind, hpick]
  simp only [if_neg hp]
  rfl

theorem kmalloc_cases (s : Vm) : kmalloc s = .ok none s.ktick ∨ ∃ p, p ∉ s.live ∧ kmalloc s = .ok (some p) (s.ktake p) := by
  by_cases h : ∃ p, s.kpick s.kticks = some p ∧ p ∉ s.live
  · obtain ⟨p, hpick, hp⟩ := h
    exact .inr ⟨p, hp, kmalloc_some hpick hp⟩
  · exact .inl (kmalloc_none fun p hpick => not_not.mp fun hp => h ⟨p, hpick, hp⟩)

theorem Vm.Inv.ktick (h : s.Inv M L) : s.ktick.Inv M L :=
  h.extend rfl (fun _ hp => hp) (fun _ _ => rfl) (fun _ _ => rfl) (fun _ _ _ hv => hv) h.wf

theorem Vm.Inv.ktake (h : s.Inv M L) (p : Nat) : (s.ktake p).Inv M L :=
  h.extend rfl (fun _ hp => Finset.mem_insert_of_mem hp) (fun _ _ => rfl) (fun _ _ => rfl) (fun _ _ _ hv => hv) h.wf

/-! ## Areas -/

/-- What `find_vma` finds contains the address. -/
theorem Mm.find_contains {x : Mm} (hv : x.findVma addr = some v) : v.Contains addr := by
  have hlist : x.mmapList.find? (fun w => w.Contains addr) = some v → v.Contains addr := by
    intro hf
    exact of_decide_eq_true (List.find?_some (p := fun w : Vma => decide (w.Contains addr)) hf)
  rw [Mm.findVma] at hv
  cases hc : x.mmapCache with
  | none =>
    rw [hc] at hv
    exact hlist hv
  | some w =>
    simp only [hc] at hv
    split at hv
    · next hin =>
      obtain rfl := Option.some.inj hv
      exact hin
    · exact hlist hv

/-- An address is in one area. -/
theorem Mm.Sorted.unique {x : Mm} {w : Vma} (h : x.Sorted) (hv : v ∈ x.mmapList) (hw : w ∈ x.mmapList) (hva : v.Contains addr)
    (hwa : w.Contains addr) : v = w := by
  by_contra hne
  have hsymm : Std.Symm fun p q : Vma => p.vmEnd ≤ q.vmStart ∨ q.vmEnd ≤ p.vmStart := ⟨fun _ _ => Or.symm⟩
  have hapart := (h.sorted.imp fun hpq => Or.inl hpq).forall (R := fun p q : Vma => p.vmEnd ≤ q.vmStart ∨ q.vmEnd ≤ p.vmStart) hv hw hne
  have h1 := hva.1
  have h2 := hva.2
  have h3 := hwa.1
  have h4 := hwa.2
  omega

/-- `find_vma` finds an area that contains the address, if there is one. -/
theorem Mm.Sorted.find_some {x : Mm} (h : x.Sorted) (hv : x.findVma addr = some v) : v ∈ x.mmapList ∧ v.Contains addr := by
  refine ⟨?_, Mm.find_contains hv⟩
  rw [Mm.findVma] at hv
  cases hc : x.mmapCache with
  | none =>
    rw [hc] at hv
    exact List.mem_of_find?_eq_some hv
  | some w =>
    simp only [hc] at hv
    split at hv
    · obtain rfl := Option.some.inj hv
      exact h.cached w hc
    · exact List.mem_of_find?_eq_some hv

theorem Mm.find_none {x : Mm} (hv : x.findVma addr = none) (hmem : v ∈ x.mmapList) : ¬ v.Contains addr := by
  have hlist : x.mmapList.find? (fun w => w.Contains addr) = none → ¬ v.Contains addr := fun hf hin =>
    List.find?_eq_none.mp hf v hmem (decide_eq_true hin)
  rw [Mm.findVma] at hv
  cases hc : x.mmapCache with
  | none =>
    rw [hc] at hv
    exact hlist hv
  | some w =>
    simp only [hc] at hv
    split at hv
    · cases hv
    · exact hlist hv

/-- The area found is the one in the cache from now on. -/
def Mm.found (x : Mm) (addr : Nat) : Mm :=
  match x.findVma addr with
  | none     => x
  | some vma => { x with mmapCache := some vma }

theorem Mm.found_same (x : Mm) (addr : Nat) :
    (x.found addr).mmapList = x.mmapList ∧ (x.found addr).pgdir = x.pgdir ∧ (x.found addr).mmCount = x.mmCount := by
  rw [Mm.found]
  split
  · exact ⟨rfl, rfl, rfl⟩
  · exact ⟨rfl, rfl, rfl⟩

theorem Mm.Sorted.found {x : Mm} (h : x.Sorted) (addr : Nat) : (x.found addr).Sorted := by
  rw [Mm.found]
  split
  · exact h
  · next v hv =>
    refine ⟨h.nonempty, h.sorted, fun w hw => ?_⟩
    obtain rfl := Option.some.inj hw
    exact (h.find_some hv).1

theorem Mm.Wf.found {x : Mm} (h : x.Wf) (addr : Nat) : (x.found addr).Wf where
  ok v hv := h.ok v ((x.found_same addr).1 ▸ hv)
  sorted := (h.toSorted.found addr).sorted
  cached := (h.toSorted.found addr).cached

theorem findVma_run (m addr : Nat) (s : Vm) :
    findVma m addr s = .ok ((s.mm m).findVma addr) (s.setMm m ((s.mm m).found addr)) := by
  rw [findVma, Proc.get_bind, Mm.found]
  cases (s.mm m).findVma addr with
  | none =>
    have hsame : s.setMm m (s.mm m) = s := by rw [Vm.setMm, Function.update_eq_self]
    exact congrArg (Outcome.ok none) hsame.symm
  | some v => rfl

theorem Vm.Inv.found (h : s.Inv M L) (m addr : Nat) : (s.setMm m ((s.mm m).found addr)).Inv M L := by
  obtain ⟨hlist, hpgdir, hcount⟩ := (s.mm m).found_same addr
  exact h.setMm m hpgdir hcount (fun v hv => hlist ▸ hv) fun hwf => hwf.found addr

theorem vmaCreate_cases (vmStart vmEnd : Nat) (flags : VmFlags) (s : Vm) :
    vmaCreate vmStart vmEnd flags s = .ok none s.ktick ∨ ∃ p, p ∉ s.live ∧ vmaCreate vmStart vmEnd flags s =
      .ok (some { obj := p, vmStart := vmStart, vmEnd := vmEnd, vmFlags := flags }) (s.ktake p) := by
  rcases kmalloc_cases s with hk | ⟨p, hp, hk⟩
  · refine .inl ?_
    rw [vmaCreate, Proc.bind_ok hk]
    rfl
  · refine .inr ⟨p, hp, ?_⟩
    rw [vmaCreate, Proc.bind_ok hk]
    rfl

theorem checkVmaOverlap_meets (a b : Vma) (s : Vm) :
    (checkVmaOverlap a b s).Meets (fun _ s' => s' = s ∧ a.vmEnd ≤ b.vmStart) (fun _ _ => False) fun p => p = .vmaOverlap := by
  rw [checkVmaOverlap]
  by_cases h1 : a.vmStart < a.vmEnd
  · rw [Proc.check_bind_pos h1]
    by_cases h2 : a.vmEnd ≤ b.vmStart
    · rw [Proc.check_bind_pos h2]
      by_cases h3 : b.vmStart < b.vmEnd
      · rw [Proc.check_run_pos h3]
        exact ⟨rfl, h2⟩
      · rw [Proc.check_run_neg h3]
        rfl
    · rw [Proc.check_bind_neg h2]
      rfl
  · rw [Proc.check_bind_neg h1]
    rfl

theorem Mm.split_append (mm : Mm) (v : Vma) : (mm.split v).1 ++ (mm.split v).2 = mm.mmapList := by
  rw [Mm.split, List.span_eq_takeWhile_dropWhile]
  exact List.takeWhile_append_dropWhile

theorem Mm.mem_insert {mm : Mm} {v w : Vma} : w ∈ (mm.insert v).mmapList ↔ w = v ∨ w ∈ mm.mmapList := by
  show w ∈ (mm.split v).1 ++ v :: (mm.split v).2 ↔ _
  rw [List.mem_append, List.mem_cons, ← mm.split_append v, List.mem_append]
  tauto

theorem checkPrev_meets (x : Option Vma) (v : Vma) (s : Vm) :
    (checkPrev x v s).Meets (fun _ s' => s' = s ∧ ∀ a, x = some a → a.vmEnd ≤ v.vmStart) (fun _ _ => False)
      fun p => p = .vmaOverlap := by
  cases x with
  | none => exact ⟨rfl, fun _ ha => nomatch ha⟩
  | some a =>
    refine (checkVmaOverlap_meets a v s).imp (fun _ s' hh => ⟨hh.1, ?_⟩) (fun _ _ hh => hh) fun _ hp => hp
    intro b hb
    obtain rfl := Option.some.inj hb
    exact hh.2

theorem checkNext_meets (x : Option Vma) (v : Vma) (s : Vm) :
    (checkNext v x s).Meets (fun _ s' => s' = s ∧ ∀ a, x = some a → v.vmEnd ≤ a.vmStart) (fun _ _ => False)
      fun p => p = .vmaOverlap := by
  cases x with
  | none => exact ⟨rfl, fun _ ha => nomatch ha⟩
  | some a =>
    refine (checkVmaOverlap_meets v a s).imp (fun _ s' hh => ⟨hh.1, ?_⟩) (fun _ _ hh => hh) fun _ hp => hp
    intro b hb
    obtain rfl := Option.some.inj hb
    exact hh.2

/-- The new area overlaps neither of its neighbours. -/
def Mm.Fits (mm : Mm) (v : Vma) : Prop :=
  v.vmStart < v.vmEnd ∧ (∀ a, (mm.split v).1.getLast? = some a → a.vmEnd ≤ v.vmStart) ∧
    ∀ a, (mm.split v).2.head? = some a → v.vmEnd ≤ a.vmStart

/-- **`insert_vma_struct`** puts the area in its place. -/
theorem insertVmaStruct_meets (m : Nat) (v : Vma) (s : Vm) :
    (insertVmaStruct m v s).Meets (fun _ s' => s' = s.setMm m ((s.mm m).insert v) ∧ (s.mm m).Fits v)
      (fun _ _ => False) fun p => p = .vmaRange ∨ p = .vmaOverlap := by
  rw [insertVmaStruct]
  by_cases hlt : v.vmStart < v.vmEnd
  · rw [Proc.check_bind_pos hlt, Proc.get_bind]
    refine ((checkPrev_meets _ v s).imp (fun _ _ h => h) (fun _ _ h => h) fun _ hp => .inr hp).bind ?_
    rintro _ s1 ⟨heq1, hprev⟩
    refine ((checkNext_meets _ v s1).imp (fun _ _ h => h) (fun _ _ h => h) fun _ hp => .inr hp).bind ?_
    rintro _ s2 ⟨_, hnext⟩
    exact ⟨rfl, hlt, hprev, hnext⟩
  · rw [Proc.check_bind_neg hlt]
    exact .inl rfl

/-- An area that fits has its place between those before and those behind it. -/
theorem Mm.Sorted.insert {x : Mm} (h : x.Sorted) (hf : x.Fits v) : (x.insert v).Sorted where
  nonempty := by
    intro w hw
    rcases Mm.mem_insert.mp hw with rfl | hw
    · exact hf.1
    · exact h.nonempty w hw
  sorted := by
    have hall := x.split_append v
    have hs := h.sorted
    have hok : ∀ w ∈ (x.split v).1 ++ (x.split v).2, w.vmStart < w.vmEnd := fun w hw => h.nonempty w (hall ▸ hw)
    rw [← hall, List.pairwise_append] at hs
    obtain ⟨hs1, hs2, -⟩ := hs
    have hbefore : ∀ a ∈ (x.split v).1, a.vmEnd ≤ v.vmStart := by
      intro a ha
      obtain hnil | ⟨init, b, hlist⟩ := List.eq_nil_or_concat' (x.split v).1
      · rw [hnil] at ha
        exact absurd ha List.not_mem_nil
      · have hb := hf.2.1 b (by rw [hlist, List.getLast?_concat])
        rw [hlist, List.mem_append, List.mem_singleton] at ha
        rcases ha with ha | rfl
        · rw [hlist, List.pairwise_append] at hs1
          have hab := hs1.2.2 a ha b (List.mem_singleton_self b)
          have hlt := hok b (by rw [hlist]; simp)
          omega
        · exact hb
    have hbehind : ∀ b ∈ (x.split v).2, v.vmEnd ≤ b.vmStart := by
      intro b hb
      cases hlist : (x.split v).2 with
      | nil =>
        rw [hlist] at hb
        exact absurd hb List.not_mem_nil
      | cons c rest =>
        have hc := hf.2.2 c (by rw [hlist]; rfl)
        rw [hlist] at hb hs2
        rcases List.mem_cons.mp hb with rfl | hb
        · exact hc
        · have hcb := List.rel_of_pairwise_cons hs2 hb
          have hlt := hok c (by rw [hlist]; simp)
          omega
    refine List.pairwise_append.mpr ⟨hs1, List.pairwise_cons.mpr ⟨hbehind, hs2⟩, fun a ha b hb => ?_⟩
    have hlt := hf.1
    have h1 := hbefore a ha
    rcases List.mem_cons.mp hb with rfl | hb
    · exact h1
    · have h2 := hbehind b hb
      omega
  cached w hw := Mm.mem_insert.mpr (.inr (h.cached w hw))

theorem Mm.Wf.insert {x : Mm} (h : x.Wf) (hv : v.Ok) (hf : x.Fits v) : (x.insert v).Wf where
  ok := by
    intro w hw
    rcases Mm.mem_insert.mp hw with rfl | hw
    · exact hv
    · exact h.ok w hw
  sorted := (h.toSorted.insert hf).sorted
  cached := (h.toSorted.insert hf).cached

theorem Vm.Inv.addVma (h : s.Inv M L) (m : Nat) (hv : v.Ok) (hf : (s.mm m).Fits v) :
    (s.setMm m ((s.mm m).insert v)).Inv M L :=
  h.setMm m rfl rfl (fun _ hw => Mm.mem_insert.mpr (.inr hw)) fun hwf => hwf.insert hv hf

theorem rounddown_aligned (a : Nat) : rounddown a pgsize % pgsize = 0 := by
  show (a - a % 2 ^ 12) % 2 ^ 12 = 0
  omega

theorem mmMapInsert_inv (h : s.Inv M L) (m : Nat) (flags : VmFlags) {start stop : Nat} (hal : start % pgsize = 0)
    (hal' : stop % pgsize = 0) (hac : UserAccess start stop) :
    (mmMapInsert m start stop flags s).Meets (fun _ s' => s'.Inv M L) (fun _ s' => s'.Inv M L) fun _ => True := by
  rw [mmMapInsert]
  rcases vmaCreate_cases start stop flags s with hc | ⟨p, _, hc⟩
  · rw [Proc.bind_ok hc]
    exact h.ktick
  · rw [Proc.bind_ok hc]
    refine (insertVmaStruct_meets m _ _).imp ?_ (fun _ _ hh => hh.elim) fun _ _ => trivial
    rintro _ _ ⟨rfl, hfits⟩
    exact (h.ktake p).addVma m ⟨hal, hal', hac⟩ hfits

theorem mmMapRange_inv (h : s.Inv M L) (m : Nat) (flags : VmFlags) {start stop : Nat} (hal : start % pgsize = 0)
    (hal' : stop % pgsize = 0) :
    (mmMapRange m start stop flags s).Meets (fun _ s' => s'.Inv M L) (fun _ s' => s'.Inv M L) fun _ => True := by
  rw [mmMapRange]
  by_cases hac : UserAccess start stop
  · rw [if_neg (not_not_intro hac)]
    rw [Proc.bind_ok (findVma_run m start s)]
    have h1 := h.found m start
    have hinsert := mmMapInsert_inv h1 m flags hal hal' hac
    generalize s.setMm m ((s.mm m).found start) = s1 at *
    cases (s.mm m).findVma start with
    | none => exact hinsert
    | some v =>
      show ((if stop > v.vmStart then Proc.fail (-eInval) else mmMapInsert m start stop flags : VmM Unit) s1).Meets _ _ _
      split
      · exact h1
      · exact hinsert
  · rw [if_pos hac]
    exact h

/-- **`mm_map`.** -/
theorem mmMap_inv (h : s.Inv M L) (m addr len : Nat) (flags : VmFlags) :
    (mmMap m addr len flags s).Meets (fun _ s' => s'.Inv M L) (fun _ s' => s'.Inv M L) fun _ => True :=
  mmMapRange_inv h m flags (rounddown_aligned addr) (rounddown_aligned _)

/-! ## Steps that map pages -/

/-- The pages change, and every page that is newly mapped lies in an area. -/
theorem Vm.Inv.remem (h : s.Inv M L) (hsound : Sound mem (s.dirs M) L)
    (hin : ∀ m ∈ M, ∀ n, n < userPages → mem.maps (s.mm m).pgdir n ≠ none →
      s.mem.maps (s.mm m).pgdir n ≠ none ∨ ∃ v ∈ (s.mm m).mmapList, v.Has n) : (s.setMem mem).Inv M L where
  sound := hsound
  inj := h.inj
  live := h.live
  count := h.count
  wf := h.wf
  inside := by
    intro m hm n hn hne
    rcases hin m hm n hn hne with hold | hhas
    · exact h.inside m hm n hn hold
    · exact hhas

theorem Vm.Inv.setMem (h : s.Inv M L) (hm : m ∈ M) (hmap : Mapped (s.dirs M) L (s.mm m).pgdir R s.mem mem)
    (hR : ∀ n, n < userPages → R n → ∃ v ∈ (s.mm m).mmapList, v.Has n) : (s.setMem mem).Inv M L := by
  refine h.remem hmap.sound fun m' hm' n hn hne => ?_
  by_cases hin : (s.mm m').pgdir = (s.mm m).pgdir ∧ R n
  · obtain rfl := h.inj m' hm' m hm hin.1
    exact .inr (hR n hn hin.2)
  · rw [hmap.maps (Vm.mem_dirs hm') hn hin] at hne
    exact .inl hne

theorem inMem_meets {α : Type} {x : MemM α} {Q : α → PageMem → Prop} {E : Int → PageMem → Prop} {P : MmPanic → Prop}
    (h : (x s.mem).Meets Q E P) :
    (inMem x s).Meets (fun a s' => ∃ t, s' = s.setMem t ∧ Q a t) (fun e s' => ∃ t, s' = s.setMem t ∧ E e t) P := by
  cases hx : x s.mem with
  | ok a t =>
    rw [inMem, Proc.zoom_ok hx]
    exact ⟨t, rfl, h.of_ok hx⟩
  | err e t =>
    rw [inMem, Proc.zoom_err hx]
    exact ⟨t, rfl, h.of_err hx⟩
  | panic p =>
    rw [inMem, Proc.zoom_panic hx]
    exact h.of_panic hx

theorem inMem_eq_ok {α : Type} {x : MemM α} {a : α} : inMem x s = .ok a s' ↔ ∃ t, x s.mem = .ok a t ∧ s' = s.setMem t := by
  unfold inMem Proc.zoom
  cases x s.mem with
  | ok b t => simp [and_assoc, eq_comm]
  | err e t => simp
  | panic p => simp

theorem pgdirAllocPage_mapped {t : PageMem} {D : Finset Nat} {d : Nat} (h : Sound t D L) (hd : d ∈ D) (hla : la < userTop)
    (perm : Perm) : (pgdirAllocPage d la perm t).Meets (fun _ t' => Mapped D L d (fun n => n = la / pgsize) t t')
      (fun _ _ => False) fun _ => False := by
  have htake : ∀ p, Mapped D L d (fun n => n = la / pgsize) t (t.take p) :=
    fun p => ⟨h.take p, fun _ _ _ _ _ => rfl, Nat.le_refl _⟩
  rcases pgdirAllocPage_spec h hd hla perm with hrun | ⟨p, t1, hp, hg, _, hrun⟩ | ⟨p, t', hp, ⟨t1, hg, hr⟩, hrun⟩
  · rw [hrun]
    exact ⟨h.tick, fun _ _ _ _ _ => rfl, Nat.le_succ _⟩
  · rw [hrun]
    have hnot : ¬ t1.IsTable D p := hg.not_isTable (Finset.notMem_erase p t.free) (h.not_isTable hp)
    have hzero : t1.count D p = 0 := (hg.count p).trans (h.count_free hp)
    have hm := (htake p).trans (hg.mapped (h.take p))
    exact ⟨hm.sound.give hnot (h.not_lost (.inl hp)) hzero, hm.leaf, hm.nulls⟩
  · rw [hrun]
    exact ((htake p).trans (hg.mapped (h.take p))).trans (hr.mapped rfl)

theorem Vma.Ok.lt_userTop (h : v.Ok) (hla : v.Contains la) : la < userTop := Nat.lt_of_lt_of_le hla.2 h.2.2.2.2

/-- **`pgdir_alloc_page`** inside an area. -/
theorem allocAt_inv (h : s.Inv M L) (hm : m ∈ M) (hv : v ∈ (s.mm m).mmapList) (hla : v.Contains la) (perm : Perm) :
    (inMem (pgdirAllocPage (s.mm m).pgdir la perm) s).Meets (fun _ s' => s'.Inv M L) (fun _ s' => s'.Inv M L)
      fun _ => False := by
  have hok := (h.wf m hm).ok v hv
  refine (inMem_meets (pgdirAllocPage_mapped h.sound (Vm.mem_dirs hm) (hok.lt_userTop hla) perm)).imp ?_ ?_ fun _ hp => hp
  · rintro _ _ ⟨t, rfl, hmap⟩
    refine h.setMem hm hmap ?_
    rintro n _ rfl
    exact ⟨v, hv, hok.has hla⟩
  · rintro _ _ ⟨_, _, hfalse⟩
    exact hfalse.elim

/-- The loop of `dup_mmap`. -/
theorem dupVmas_inv {pgdirFrom : Nat} (vs : List Vma) : ∀ {s : Vm}, s.Inv M L → dst ∈ M → pgdirFrom ∈ s.dirs M →
    (s.mm dst).pgdir ≠ pgdirFrom → (∀ v ∈ vs, v.Ok) →
    (dupVmas dst pgdirFrom vs s).Meets (fun _ s' => s'.Inv M L) (fun _ s' => s'.Inv M L) fun _ => True := by
  induction vs with
  | nil => exact fun h _ _ _ _ => h
  | cons v vs ih =>
    intro s h hdst hfrom hne hvs
    have hv : v.Ok := hvs v List.mem_cons_self
    rw [dupVmas]
    rcases vmaCreate_cases v.vmStart v.vmEnd v.vmFlags s with hc | ⟨p, _, hc⟩
    · rw [Proc.bind_ok hc]
      exact h.ktick
    · rw [Proc.bind_ok hc]
      refine ((insertVmaStruct_meets dst _ _).imp (fun _ _ hh => hh) (fun _ _ hh => hh.elim) fun _ _ => trivial).bind ?_
      rintro _ _ ⟨rfl, hfits⟩
      rw [Proc.get_bind]
      -- the new area and the directory it is copied into
      generalize hnv : ({ obj := p, vmStart := v.vmStart, vmEnd := v.vmEnd, vmFlags := v.vmFlags } : Vma) = nv
      have hnok : nv.Ok := by
        subst hnv
        exact hv
      have hhas : nv.Has = InRange v.vmStart v.vmEnd := by
        subst hnv
        rfl
      have h1 := (h.ktake p).addVma dst hnok (hnv ▸ hfits)
      have hmm : ((s.ktake p).setMm dst (((s.ktake p).mm dst).insert nv)).mm dst = (s.mm dst).insert nv :=
        Function.update_self ..
      have hdirs : ((s.ktake p).setMm dst (((s.ktake p).mm dst).insert nv)).dirs M = s.dirs M := by
        refine Vm.dirs_congr fun m _ => ?_
        show (Function.update s.mm dst _ m).pgdir = _
        by_cases hm : m = dst
        · rw [hm, Function.update_self]
          rfl
        · rw [Function.update_of_ne hm]
      generalize (s.ktake p).setMm dst (((s.ktake p).mm dst).insert nv) = s1 at *
      have hpgdir : (s1.mm dst).pgdir = (s.mm dst).pgdir := by
        rw [hmm]
        rfl
      have hmem : nv ∈ (s1.mm dst).mmapList := by
        rw [hmm]
        exact Mm.mem_insert.mpr (.inl rfl)
      have hcopy := @copyRange_spec s1.mem (s1.dirs M) L (s1.mm dst).pgdir pgdirFrom v.vmStart v.vmEnd h1.sound
        (Vm.mem_dirs hdst) (hdirs ▸ hfrom) (hpgdir ▸ hne)
      have hkeep : ∀ t, Mapped (s1.dirs M) L (s1.mm dst).pgdir (InRange v.vmStart v.vmEnd) s1.mem t →
          (s1.setMem t).Inv M L := fun t hmap => h1.setMem hdst hmap fun n _ hin => ⟨nv, hmem, hhas ▸ hin⟩
      cases hrun : inMem (copyRange (s1.mm dst).pgdir pgdirFrom v.vmStart v.vmEnd) s1 with
      | ok u s2 =>
        rw [Proc.bind_ok (Proc.attempt_ok hrun)]
        obtain ⟨t, rfl, hmap, _⟩ := (inMem_meets hcopy).of_ok hrun
        exact ih (hkeep t hmap) hdst (hdirs ▸ hfrom) (hpgdir ▸ hne) fun w hw => hvs w (List.mem_cons_of_mem v hw)
      | err e s2 =>
        rw [Proc.bind_ok (Proc.attempt_err hrun)]
        obtain ⟨t, rfl, hmap, _⟩ := (inMem_meets hcopy).of_err hrun
        exact hkeep t hmap
      | panic q =>
        rw [Proc.bind_panic (Proc.attempt_panic hrun)]
        trivial

/-- **`dup_mmap`.** -/
theorem dupMmap_inv (h : s.Inv M L) (hdst : dst ∈ M) (hsrc : src ∈ M) (hne : dst ≠ src) :
    (dupMmap dst src s).Meets (fun _ s' => s'.Inv M L) (fun _ s' => s'.Inv M L) fun _ => True := by
  rw [dupMmap, Proc.get_bind]
  refine dupVmas_inv _ h hdst (Vm.mem_dirs hsrc) (fun heq => hne (h.inj dst hdst src hsrc heq)) fun v hv => ?_
  exact (h.wf src hsrc).ok v (List.mem_reverse.mp hv)

/-! ## A new address space -/

/-- The address space `m` with the directory `p`, not in use so far. -/
theorem Vm.Inv.create (h : s.Inv M L) (hm : m ∉ s.live) {p : Nat} (hp : p ∈ s.mem.free)
    (hboot : ∀ i < 2, (boot i).v = false) (hmem : s'.mem = (s.mem.take p).setTable p boot)
    (hlive : s'.live = insert m s.live) (hmm : s'.mm = Function.update s.mm m { Mm.empty with pgdir := p }) :
    s'.Inv (insert m M) L := by
  have hnew : s'.mm m = { Mm.empty with pgdir := p } := by rw [hmm, Function.update_self]
  have hold : ∀ m' ∈ M, s'.mm m' = s.mm m' := by
    intro m' hm'
    rw [hmm, Function.update_of_ne]
    rintro rfl
    exact hm (h.live m' hm')
  have hdirs : s'.dirs (insert m M) = insert p (s.dirs M) := by
    rw [Vm.dirs, Finset.image_insert, hnew]
    exact congrArg (insert p) (Vm.dirs_congr fun m' hm' => by rw [hold m' hm'])
  have hpnot : ∀ m' ∈ M, (s.mm m').pgdir ≠ p := by
    rintro m' hm' rfl
    exact h.sound.busy _ ⟨_, Vm.mem_dirs hm', .root, trivial, rfl⟩ hp
  refine ⟨?_, ?_, ?_, ?_, ?_, ?_⟩
  · rw [hdirs, hmem]
    exact setup_sound hboot h.sound hp
  · intro m1 hm1 m2 hm2 heq
    rcases Finset.mem_insert.mp hm1 with hm | hM1
    · rcases Finset.mem_insert.mp hm2 with hm' | hM2
      · exact hm.trans hm'.symm
      · rw [hm, hnew, hold m2 hM2] at heq
        exact absurd heq.symm (hpnot m2 hM2)
    · rcases Finset.mem_insert.mp hm2 with hm' | hM2
      · rw [hm', hnew, hold m1 hM1] at heq
        exact absurd heq (hpnot m1 hM1)
      · rw [hold m1 hM1, hold m2 hM2] at heq
        exact h.inj m1 hM1 m2 hM2 heq
  · intro m1 hm1
    rw [hlive]
    rcases Finset.mem_insert.mp hm1 with rfl | hm1
    · exact Finset.mem_insert_self _ _
    · exact Finset.mem_insert_of_mem (h.live m1 hm1)
  · intro m1 hm1
    rcases Finset.mem_insert.mp hm1 with rfl | hm1
    · rw [hnew]
      rfl
    · rw [hold m1 hm1]
      exact h.count m1 hm1
  · intro m1 hm1
    rcases Finset.mem_insert.mp hm1 with rfl | hm1
    · rw [hnew]
      exact ⟨fun v hv => absurd hv List.not_mem_nil, .nil, fun v hv => nomatch hv⟩
    · rw [hold m1 hm1]
      exact h.wf m1 hm1
  · intro m1 hm1 n hn hne
    rw [hmem] at hne
    rcases Finset.mem_insert.mp hm1 with rfl | hm1
    · rw [hnew] at hne
      exact absurd (setup_maps_new hboot hn) hne
    · rw [hold m1 hm1] at hne ⊢
      have hsame : ((s.mem.take p).setTable p boot).maps (s.mm m1).pgdir n = s.mem.maps (s.mm m1).pgdir n :=
        maps_of_leaf (setup_leaf_old h.sound hp (Vm.mem_dirs hm1) hn)
      exact h.inside m1 hm1 n hn fun hnone => hne (hsame.trans hnone)

/-- There is a block for the `mm_struct`, and a page for its directory. -/
def Vm.HasSpace (s : Vm) : Prop :=
  (∃ q, s.kpick s.kticks = some q ∧ q ∉ s.live) ∧ ∃ p, s.mem.pick s.mem.ticks = some p ∧ p ∈ s.mem.free

/-- **How `mm_create` and `setup_pgdir` end.** -/
theorem mmNew_cases (boot : Nat → Pte) (s : Vm) :
    (¬ s.HasSpace ∧ (mmNew boot s = .err (-eNoMem) s.ktick ∨
      ∃ m, m ∉ s.live ∧ mmNew boot s = .err (-eNoMem) ((((s.ktake m).setMm m .empty).setMem s.mem.tick).kgive m))) ∨
    (s.HasSpace ∧ ∃ m p, m ∉ s.live ∧ p ∈ s.mem.free ∧ mmNew boot s = .ok m
      ((((s.ktake m).setMm m .empty).setMem ((s.mem.take p).setTable p boot)).setMm m { Mm.empty with pgdir := p })) := by
  by_cases hroom : ∃ q, s.kpick s.kticks = some q ∧ q ∉ s.live
  · obtain ⟨m, hpick, hm⟩ := hroom
    have hc : mmCreate s = .ok (some m) ((s.ktake m).setMm m .empty) := by
      rw [mmCreate, Proc.bind_ok (kmalloc_some hpick hm)]
      rfl
    rw [mmNew, Proc.bind_ok hc]
    dsimp only
    by_cases hpage : ∃ p, s.mem.pick s.mem.ticks = some p ∧ p ∈ s.mem.free
    · obtain ⟨p, hpick', hp⟩ := hpage
      refine .inr ⟨⟨⟨m, hpick, hm⟩, p, hpick', hp⟩, m, p, hm, hp, ?_⟩
      have hs : setupPgdir boot s.mem = .ok p ((s.mem.take p).setTable p boot) := by
        rw [setupPgdir, Proc.bind_ok (allocPage_some hpick' hp)]
        rfl
      have hrun : mmSetupPgdir boot m ((s.ktake m).setMm m .empty) = .ok ()
          ((((s.ktake m).setMm m .empty).setMem ((s.mem.take p).setTable p boot)).setMm m { Mm.empty with pgdir := p }) := by
        have hpd : inMem (setupPgdir boot) ((s.ktake m).setMm m .empty) =
            .ok p (((s.ktake m).setMm m .empty).setMem ((s.mem.take p).setTable p boot)) := Proc.zoom_ok hs
        rw [mmSetupPgdir, Proc.bind_ok hpd]
        show Outcome.ok () ((((s.ktake m).setMm m .empty).setMem ((s.mem.take p).setTable p boot)).setMm m
          { Function.update s.mm m Mm.empty m with pgdir := p }) = _
        rw [Function.update_self]
      rw [Proc.bind_ok (Proc.attempt_ok hrun)]
      rfl
    · refine .inl ⟨fun h => hpage h.2, .inr ⟨m, hm, ?_⟩⟩
      -- no page for the directory: the object is freed again
      have hs : setupPgdir boot s.mem = .err (-eNoMem) s.mem.tick := by
        rw [setupPgdir, Proc.bind_ok (allocPage_none fun p hpick' hp => hpage ⟨p, hpick', hp⟩)]
        rfl
      have hrun : mmSetupPgdir boot m ((s.ktake m).setMm m .empty) =
          .err (-eNoMem) (((s.ktake m).setMm m .empty).setMem s.mem.tick) := by
        rw [mmSetupPgdir]
        exact Proc.bind_err (Proc.zoom_err hs)
      have hmm : (((s.ktake m).setMm m .empty).setMem s.mem.tick).mm m = .empty := Function.update_self ..
      have hdestroy : mmDestroy m (((s.ktake m).setMm m .empty).setMem s.mem.tick) =
          .ok () ((((s.ktake m).setMm m .empty).setMem s.mem.tick).kgive m) := by
        rw [mmDestroy, Proc.get_bind, hmm, Proc.check_bind_pos (show Mm.empty.mmCount = 0 from rfl)]
        rfl
      rw [Proc.bind_ok (Proc.attempt_err hrun)]
      dsimp only
      rw [Proc.bind_ok hdestroy]
      rfl
  · refine .inl ⟨fun h => hroom h.1, .inl ?_⟩
    have hc : mmCreate s = .ok none s.ktick := by
      rw [mmCreate, Proc.bind_ok (kmalloc_none fun q hpick => not_not.mp fun hq => hroom ⟨q, hpick, hq⟩)]
      rfl
    rw [mmNew, Proc.bind_ok hc]
    rfl

/-- **`mm_create` and `setup_pgdir`** keep the invariant. -/
theorem mmNew_inv (h : s.Inv M L) (hboot : ∀ i < 2, (boot i).v = false) :
    (mmNew boot s).Meets (fun m s' => s'.Inv (insert m M) L) (fun _ s' => s'.Inv M L) fun _ => False := by
  rcases mmNew_cases boot s with ⟨-, hrun | ⟨m, hm, hrun⟩⟩ | ⟨-, m, p, hm, hp, hrun⟩
  · rw [hrun]
    exact h.ktick
  · rw [hrun]
    have hne : ∀ m' ∈ M, m' ≠ m := by
      rintro m' hm' rfl
      exact hm (h.live m' hm')
    have hold : ∀ m' ∈ M, ((((s.ktake m).setMm m .empty).setMem s.mem.tick).kgive m).mm m' = s.mm m' :=
      fun m' hm' => Function.update_of_ne (hne m' hm') _ _
    have htick : (s.setMem s.mem.tick).Inv M L :=
      ⟨h.sound.tick, h.inj, h.live, h.count, h.wf, fun m' hm' n hn hmap => h.inside m' hm' n hn hmap⟩
    refine htick.extend rfl (fun q hq => ?_) (fun m' hm' => ?_) (fun m' hm' => ?_) (fun m' hm' v hv => ?_) fun m' hm' => ?_
    · refine Finset.mem_erase.mpr ⟨?_, Finset.mem_insert_of_mem hq⟩
      rintro rfl
      exact hm hq
    · exact congrArg Mm.pgdir (hold m' hm')
    · exact congrArg Mm.mmCount (hold m' hm')
    · rw [hold m' hm']
      exact hv
    · rw [hold m' hm']
      exact h.wf m' hm'
  · rw [hrun]
    refine h.create hm hp hboot rfl rfl ?_
    exact Function.update_idem ..

/-! ## Runs -/

/-- The calls that build address spaces. -/
inductive VmCall where
  | create (boot : Nat → Pte)
  | map (m addr len : Nat) (flags : VmFlags)
  | allocAt (m la : Nat) (perm : Perm)
  | dup (dst src : Nat)

/-- The address spaces, and which objects are some. -/
abbrev VmState := Vm × Finset Nat

/-- Pages are allocated inside of areas. -/
inductive VmStep : VmState → VmCall → VmState → Prop where
  | create {s s' : Vm} {M : Finset Nat} {boot : Nat → Pte} {m : Nat} (hboot : ∀ i < 2, (boot i).v = false)
      (h : mmNew boot s = .ok m s') : VmStep (s, M) (.create boot) (s', insert m M)
  | noCreate {s s' : Vm} {M : Finset Nat} {boot : Nat → Pte} {e : Int} (hboot : ∀ i < 2, (boot i).v = false)
      (h : mmNew boot s = .err e s') : VmStep (s, M) (.create boot) (s', M)
  | map {s s' : Vm} {M : Finset Nat} {m addr len : Nat} {flags : VmFlags} (hm : m ∈ M)
      (h : (mmMap m addr len flags s).EndsIn s') : VmStep (s, M) (.map m addr len flags) (s', M)
  | allocAt {s s' : Vm} {M : Finset Nat} {m la : Nat} {perm : Perm} {v : Vma} (hm : m ∈ M)
      (hv : v ∈ (s.mm m).mmapList) (hla : v.Contains la)
      (h : (inMem (pgdirAllocPage (s.mm m).pgdir la perm) s).EndsIn s') : VmStep (s, M) (.allocAt m la perm) (s', M)
  | dup {s s' : Vm} {M : Finset Nat} {dst src : Nat} (hdst : dst ∈ M) (hsrc : src ∈ M) (hne : dst ≠ src)
      (h : (dupMmap dst src s).EndsIn s') : VmStep (s, M) (.dup dst src) (s', M)

/-- No address space, and no page is referenced. -/
def VmInit (a : VmState) : Prop := a.2 = ∅ ∧ ∀ p, a.1.mem.ref p = 0

/-- **The step lemma.** -/
theorem vmStep_inv {a b : VmState} {c : VmCall} (h : a.1.Inv a.2 L) (hs : VmStep a c b) : b.1.Inv b.2 L := by
  cases hs with
  | create hboot hrun => exact (mmNew_inv h hboot).of_ok hrun
  | noCreate hboot hrun => exact (mmNew_inv h hboot).of_err hrun
  | map hm hend => exact (mmMap_inv h _ _ _ _).endsIn hend
  | allocAt hm hv hla hend => exact (allocAt_inv h hm hv hla _).endsIn hend
  | dup hdst hsrc hne hend => exact (dupMmap_inv h hdst hsrc hne).endsIn hend

/-- **The run lemma.** -/
theorem vmReaches_inv {a : VmState} (h : Reaches VmInit VmStep (fun _ _ => True) a) : a.1.Inv a.2 fun _ => False := by
  refine h.invariant (I := fun a => a.1.Inv a.2 fun _ => False) ?_ fun a c b ha _ hs => vmStep_inv ha hs
  rintro ⟨s, M⟩ ⟨hM, href⟩
  obtain rfl : M = ∅ := hM
  have hsound : Sound s.mem ∅ (fun _ => False) := @mmInit_sound (s.mem, ∅) ⟨rfl, href⟩
  refine ⟨hsound, ?_, ?_, ?_, ?_, ?_⟩
  · exact fun m hm => absurd hm (Finset.notMem_empty m)
  · exact fun m hm => absurd hm (Finset.notMem_empty m)
  · exact fun m hm => absurd hm (Finset.notMem_empty m)
  · exact fun m hm => absurd hm (Finset.notMem_empty m)
  · exact fun m hm => absurd hm (Finset.notMem_empty m)

end Ucore
