import Ucore.Mm.BestFitPmm
import Ucore.Mm.PmmRun

/-!
# `Mm.Correctness.BestFit` — best fit over the runs of the allocator

`Best s n q`: of the listed blocks with at least `n` pages, the one at `q` is a smallest, and of these the lowest. The search
of `best_fit_alloc_pages` finds it in every state of every run that follows no stale `prev` pointer; taken off the list it
is gone from there, and its rest is back (`best_fit_reached`).
-/

namespace Ucore

variable {s s' : Pmm} {bs l₁ l₂ : List Nat} {out : List (Nat × Nat)} {base n q : Nat}

/-- The block at `q` is reachable from `free_list`. -/
def Listed (s : Pmm) (q : Nat) : Prop := ∃ k, (listNext s.link)^[k] .freeList = .page q

structure Best (s : Pmm) (n q : Nat) : Prop where
  listed : Listed s q
  enough : n ≤ (s.pages q).property
  least : ∀ z, Listed s z → n ≤ (s.pages z).property →
    (s.pages q).property < (s.pages z).property ∨ (s.pages q).property = (s.pages z).property ∧ q ≤ z

theorem FreeList.listed_iff (h : FreeList s bs out) : Listed s q ↔ q ∈ bs := by
  constructor
  · rintro ⟨k, hk⟩
    have hmem := h.ring.iterate_mem k
    rw [hk] at hmem
    simpa using hmem
  · intro hq
    exact h.ring.exists_iterate (List.mem_map_of_mem hq)

/-! ## The search -/

/-- The search loop ends with the first of the smallest blocks that are large enough and smaller than `minSize`, if there is
    one. -/
theorem bestLoop_run (n fuel : Nat) {le : Link} (page : Option Nat) (minSize : Nat)
    (hring : Seg (listNext s.link) le (bs.map .page) .freeList) (hfuel : bs.length < fuel) :
    ∃ r, bestLoop n fuel le page minSize s = .ok r s ∧
      ((r = page ∧ ∀ z ∈ bs, n ≤ (s.pages z).property → minSize ≤ (s.pages z).property) ∨
      ∃ l₁ q l₂, bs = l₁ ++ q :: l₂ ∧ r = some q ∧ n ≤ (s.pages q).property ∧ (s.pages q).property < minSize ∧
        (∀ z ∈ l₁, n ≤ (s.pages z).property → (s.pages q).property < (s.pages z).property) ∧
        ∀ z ∈ l₂, n ≤ (s.pages z).property → (s.pages q).property ≤ (s.pages z).property) := by
  induction bs generalizing fuel le page minSize with
  | nil =>
    obtain ⟨f, rfl⟩ : ∃ f, fuel = f + 1 := ⟨fuel - 1, by simp at hfuel; omega⟩
    simp only [List.map_nil, Seg.nil] at hring
    exact ⟨page, by simp [bestLoop, hring], .inl ⟨rfl, by simp⟩⟩
  | cons z bs ih =>
    obtain ⟨f, rfl⟩ : ∃ f, fuel = f + 1 := ⟨fuel - 1, by simp at hfuel; omega⟩
    obtain ⟨hz, hrest⟩ := hring
    have hfuel' : bs.length < f := by simpa using hfuel
    by_cases hc : n ≤ (s.pages z).property ∧ (s.pages z).property < minSize
    · -- `z` is better than what was found so far
      obtain ⟨r, hrun, hr⟩ := ih f (some z) (s.pages z).property hrest hfuel'
      refine ⟨r, by simp [bestLoop, hz, le2page, hc, hrun], .inr ?_⟩
      rcases hr with ⟨rfl, hall⟩ | ⟨l₁, q, l₂, rfl, rfl, hq, hlt, h₁, h₂⟩
      · exact ⟨[], z, bs, rfl, rfl, hc.1, hc.2, by simp, hall⟩
      · refine ⟨z :: l₁, q, l₂, rfl, rfl, hq, by omega, fun y hy hny => ?_, h₂⟩
        rcases List.mem_cons.mp hy with rfl | hy
        · exact hlt
        · exact h₁ y hy hny
    · obtain ⟨r, hrun, hr⟩ := ih f page minSize hrest hfuel'
      refine ⟨r, by simp [bestLoop, hz, le2page, hc, hrun], ?_⟩
      rcases hr with ⟨rfl, hall⟩ | ⟨l₁, q, l₂, rfl, rfl, hq, hlt, h₁, h₂⟩
      · refine .inl ⟨rfl, fun y hy hny => ?_⟩
        rcases List.mem_cons.mp hy with rfl | hy
        · omega
        · exact hall y hy hny
      · refine .inr ⟨z :: l₁, q, l₂, rfl, rfl, hq, hlt, fun y hy hny => ?_, h₂⟩
        rcases List.mem_cons.mp hy with rfl | hy
        · omega
        · exact h₁ y hy hny

/-- With a free page less than `unsigned int` can count, the search finds the best block. -/
theorem bestLoop_spec (h : FreeList s bs out) (hsmall : s.npage + 1 < 2 ^ 32) :
    (∃ q, bestLoop n s.fuel .freeList none ((s.nrFree + 1) % 2 ^ 32) s = .ok (some q) s ∧ Best s n q) ∨
      bestLoop n s.fuel .freeList none ((s.nrFree + 1) % 2 ^ 32) s = .ok none s ∧
        ∀ z, Listed s z → (s.pages z).property < n := by
  have hroom := h.room
  have hmin : (s.nrFree + 1) % 2 ^ 32 = s.nrFree + 1 := Nat.mod_eq_of_lt (by omega)
  have hfuel : bs.length < s.fuel := by
    have hlen := h.length_le
    show bs.length < s.npage + 2
    omega
  have hle : ∀ z ∈ bs, (s.pages z).property ≤ s.nrFree := by
    intro z hz
    obtain ⟨l₁, l₂, rfl⟩ := List.append_of_mem hz
    exact h.prop_le
  obtain ⟨r, hrun, hr⟩ := bestLoop_run n s.fuel none ((s.nrFree + 1) % 2 ^ 32) h.ring hfuel
  rcases hr with ⟨rfl, hall⟩ | ⟨l₁, q, l₂, rfl, rfl, hq, -, h₁, h₂⟩
  · refine .inr ⟨hrun, fun z hz => ?_⟩
    have hmem := h.listed_iff.mp hz
    have hz' := hle z hmem
    by_contra hn
    have := hall z hmem (by omega)
    omega
  · refine .inl ⟨q, hrun, h.listed_iff.mpr (by simp), hq, fun z hz hn => ?_⟩
    rcases List.mem_append.mp (h.listed_iff.mp hz) with hz | hz
    · exact .inl (h₁ z hz hn)
    · rcases List.mem_cons.mp hz with rfl | hz
      · exact .inr ⟨rfl, Nat.le_refl _⟩
      · -- listed later, so at a higher address
        have hlt := (List.pairwise_cons.mp (List.pairwise_append.mp h.ascending).2.1).1 z hz
        have hle' := h₂ z hz hn
        omega

/-! ## `best_fit_init_memmap` -/

/-- Up to the last block the two insertion loops are the same. -/
theorem insertLoopBreak_skip {fuel : Nat} {le c : Link} (hc : c ≠ .freeList)
    (hring : Seg (listNext s.link) le (l₁.map .page) c) (h₁ : ∀ q ∈ l₁, q < base) :
    insertLoopBreak base (fuel + l₁.length) le s
      = insertLoopBreak base fuel ((l₁.map Link.page).getLastD le) s := by
  induction l₁ generalizing le with
  | nil => rfl
  | cons q l₁ ih =>
    obtain ⟨hq, hrest⟩ := hring
    have hlt : ¬ base < q := Nat.not_lt.mpr (Nat.le_of_lt (h₁ q (by simp)))
    have hnext : listNext s.link (.page q) ≠ .freeList := by
      rw [hrest.head]
      cases l₁ with
      | nil => simpa using hc
      | cons z l₁ => simp
    rw [List.length_cons, ← Nat.add_assoc, List.map_cons, List.getLastD_cons,
      ← ih hrest (fun z hz => h₁ z (List.mem_cons_of_mem _ hz))]
    simp only [insertLoopBreak, Proc.get_bind, hq, le2page, hlt, hnext, if_false, reduceCtorEq]

/-- One more hop, to `q`: in front of it if it is above `base`, behind it if it is the last one. -/
theorem insertLoopBreak_run {fuel : Nat} (hring : Seg (listNext s.link) .freeList ((l₁ ++ q :: l₂).map .page) .freeList)
    (h₁ : ∀ z ∈ l₁, z < base) (hfuel : l₁.length < fuel) :
    (base < q → insertLoopBreak base fuel .freeList s
      = .ok () (s.setLink (listAddBefore · (.page q) (.page base)))) ∧
    (q < base → l₂ = [] → insertLoopBreak base fuel .freeList s
      = .ok () (s.setLink (listAdd · (.page q) (.page base)))) := by
  obtain ⟨f, rfl⟩ : ∃ f, fuel = f + 1 + l₁.length := ⟨fuel - 1 - l₁.length, by omega⟩
  rw [List.map_append, List.map_cons, Seg.append] at hring
  rw [insertLoopBreak_skip (by simp) hring.1 h₁]
  constructor
  · intro hlt
    simp only [insertLoopBreak, Proc.get_bind, hring.1.last, le2page, reduceCtorEq, if_false, hlt, if_true, Proc.modify_run]
  · rintro hgt rfl
    have hlt : ¬ base < q := by omega
    have hend : listNext s.link (.page q) = .freeList := hring.2
    simp only [insertLoopBreak, Proc.get_bind, hring.1.last, le2page, reduceCtorEq, if_false, hlt, hend, if_true,
      Proc.modify_run]

theorem linkBlockBreak_run : linkBlockBreak base n s = if listEmpty s.link .freeList then
      .ok () ((s.asFree base n).setLink (listAdd · .freeList (.page base)))
    else insertLoopBreak base s.fuel .freeList (s.asFree base n) := by
  show (if listEmpty s.link .freeList then
      (Proc.modify fun s => s.setLink (listAdd · .freeList (.page base)))
    else insertLoopBreak base s.fuel .freeList : PmmM Unit) (s.asFree base n) = _
  by_cases he : listEmpty s.link .freeList = true
  · rw [if_pos he, if_pos he]; rfl
  · rw [if_neg he, if_neg he]

/-- **Linking with the `break`**: the block goes behind the last one with its `prev` pointer right. -/
theorem linkBlockBreak_spec (h : FreeList s bs ((base, n) :: out)) (hok : s.LinkOk base) :
    ∃ s' bs', linkBlockBreak base n s = .ok () s' ∧ FreeList s' bs' out ∧ s'.npage = s.npage := by
  obtain ⟨l₁, l₂, rfl, h₁, h₂⟩ := split_around h.ascending (h.out_not_mem (List.mem_cons_self ..))
  have hlen := h.length_le
  cases l₂ with
  | cons q l₂ =>
    -- as in the other loop
    have hq : ¬ s.Stale q := hok l₁ q h.listedBefore h₁ (h₂ q (by simp))
    obtain ⟨s', hrun, hl⟩ := linkBlock_before h h₁ h₂ hq
    refine ⟨s', _, ?_, hl.inv, hl.same.npage⟩
    have hfuel : l₁.length < s.fuel := by
      simp only [List.length_append, List.length_cons] at hlen
      show l₁.length < s.npage + 2
      omega
    rw [← hrun, linkBlock_run, linkBlockBreak_run, if_neg h.not_listEmpty, if_neg h.not_listEmpty,
      insertLoop_before (s := s.asFree base n) h.ring h₁ (h₂ q (by simp)) hfuel,
      (insertLoopBreak_run (s := s.asFree base n) h.ring h₁ hfuel).1 (h₂ q (by simp))]
  | nil =>
    rcases List.eq_nil_or_concat l₁ with rfl | ⟨l, z, rfl⟩
    · obtain ⟨s', hrun, hl⟩ := linkBlock_empty h
      refine ⟨s', _, ?_, hl.inv, hl.same.npage⟩
      have hempty : listEmpty s.link .freeList = true := by
        have hnext : listNext s.link .freeList = .freeList := by simpa using h.ring
        rw [listEmpty, hnext]
        exact decide_eq_true rfl
      rw [← hrun, linkBlock_run, linkBlockBreak_run, if_pos hempty, if_pos hempty]
    · rw [List.concat_eq_append, List.append_nil] at *
      have hnot : base ∉ l ++ [z] := h.out_not_mem (List.mem_cons_self ..)
      have hend : listNext s.link (.page z) = .freeList := h.next_page
      have hfuel : l.length < s.fuel := by
        simp only [List.length_append, List.length_cons] at hlen
        show l.length < s.npage + 2
        omega
      -- the pointer stores put `base` between `z` and the list head
      have hadd := FreeList.ring_rawListAdd (l ++ [z]) [] (m := s.link) (x := base)
        (by rw [List.append_nil]; exact h.nodup_links) (by rwa [List.append_nil])
        (by rw [List.append_nil]; exact h.ring) (by rw [List.append_nil]; exact h.back)
      have hzlast : ((l ++ [z]).map Link.page).getLastD .freeList = .page z := by simp
      rw [hzlast] at hadd
      have hm : listAdd s.link (.page z) (.page base) = rawListAdd s.link (.page base) (.page z) .freeList := by
        rw [listAdd, listAddAfter, hend]
      have hl : Linked s ((s.asFree base n).setLink (listAdd · (.page z) (.page base))) (l ++ [z]) [] base n out := by
        refine Linked.intro (l ++ [z]) [] (by rwa [List.append_nil]) h₁ (by simp) ?_ ?_ (by simp) (fun _ => rfl)
        · rw [hm]
          exact hadd.1
        · rw [hm]
          exact hadd.2
      refine ⟨_, _, ?_, hl.inv, hl.same.npage⟩
      rw [linkBlockBreak_run, if_neg h.not_listEmpty]
      exact (insertLoopBreak_run (s := s.asFree base n) h.ring (fun q hq => h₁ q (by simp [hq])) hfuel).2
        (h₁ z (by simp)) rfl

/-! ## Runs -/

namespace PmmRun

/-- Blocks are compared by their page and their length. -/
local instance : LawfulBEq (Nat × Nat) := inferInstance

/-- One call of the best-fit allocator. -/
def bestStep (r : PmmRun) : PmmOp → Option PmmRun
  | .initMemmap base n =>
    if base + n ≤ r.pmm.npage then
      match bestFitInitMemmap base n r.pmm with
      | .ok _ s => some { r with pmm := s, given := r.given + n }
      | _       => none
    else none
  | .allocPages n =>
    match bestFitAllocPages n r.pmm with
    | .ok (some page) s => some { r with pmm := s, out := (page, n) :: r.out }
    | .ok none s        => some { r with pmm := s }
    | _                 => none
  | .freePages base n =>
    if (base, n) ∈ r.out then
      match bestFitFreePages base n r.pmm with
      | .ok _ s => some { r with pmm := s, out := r.out.erase (base, n) }
      | _       => none
    else none

/-- `page_init` reserves every page, `best_fit_init` makes the list empty. -/
def BestInit (r : PmmRun) : Prop :=
  ∃ s : Pmm, s.npage + 1 < 2 ^ 32 ∧ (∀ i, i < s.npage → (s.pages i).pgReserved = true) ∧
    r = { pmm := bestFitInit s, out := [], given := 0 }

/-- The invariant of runs. -/
def BestInv (r : PmmRun) : Prop := (∃ bs, FreeList r.pmm bs r.out) ∧ r.pmm.npage + 1 < 2 ^ 32

end PmmRun

/-- The call follows no stale `prev` pointer: an allocation does not take a stale block, and nothing is linked in front of
    one. -/
def PmmOp.BestOk (r : PmmRun) : PmmOp → Prop
  | .initMemmap base _ => r.pmm.LinkOk base
  | .freePages base _  => r.pmm.LinkOk base
  | .allocPages n      => ∀ q, Best r.pmm n q → ¬ r.pmm.Stale q

/-- What an allocation of `n` pages leaves behind when it has taken them from the block at `q`. -/
structure Taken (s s' : Pmm) (n q : Nat) : Prop where
  gone : ∀ z, Listed s' z → Apart (s'.block z) (q, n)
  rest : ∀ i, q + n ≤ i → i < q + (s.pages q).property → ∃ z, Listed s' z ∧ z ≤ i ∧ i < z + (s'.pages z).property

/-- What `best_fit_alloc_pages` does with a request for `n` pages. -/
structure FitsBest (r : PmmRun) (n : Nat) (res : Option Nat) (s' : Pmm) : Prop where
  run : bestFitAllocPages n r.pmm = .ok res s'
  none_iff : res = none ↔ ∀ z, Listed r.pmm z → (r.pmm.pages z).property < n
  best : ∀ q, res = some q → Best r.pmm n q
  taken : PmmOp.BestOk r (.allocPages n) → ∀ q, res = some q → Taken r.pmm s' n q

/-- The choice, and the state afterwards if the block was not stale. -/
theorem bestFitAllocPages_spec (h : FreeList s bs out) (hsmall : s.npage + 1 < 2 ^ 32) (hn : 0 < n) :
    (bestFitAllocPages n s = .ok none s ∧ ∀ z, Listed s z → (s.pages z).property < n) ∨
    ∃ q, Best s n q ∧ bestFitAllocPages n s = (takeBlock n q >>= fun _ => pure (some q)) s := by
  unfold bestFitAllocPages
  rw [Proc.check_bind_pos hn, Proc.get_bind]
  by_cases hlt : s.nrFree < n
  · rw [if_pos hlt]
    refine .inl ⟨rfl, fun z hz => ?_⟩
    obtain ⟨l₁, l₂, rfl⟩ := List.append_of_mem (h.listed_iff.mp hz)
    exact Nat.lt_of_le_of_lt h.prop_le hlt
  · rw [if_neg hlt]
    rcases bestLoop_spec (n := n) h hsmall with ⟨q, hrun, hbest⟩ | ⟨hrun, hall⟩
    · rw [Proc.bind_ok hrun]
      exact .inr ⟨q, hbest, rfl⟩
    · rw [Proc.bind_ok hrun]
      exact .inl ⟨rfl, hall⟩

/-- `takeBlock` returns, whatever pointers it follows. -/
theorem takeBlock_returns (n q : Nat) (s : Pmm) : ∃ s', takeBlock n q s = .ok () s' := by
  simp only [takeBlock, Proc.get_bind, Proc.modify_bind]
  by_cases hlt : n < (s.pages q).property
  · rw [Proc.bind_ok (splitBlock_cut (by simpa using hlt))]
    exact ⟨_, rfl⟩
  · rw [Proc.bind_ok (splitBlock_whole (by simpa using hlt))]
    exact ⟨_, rfl⟩

/-- Taking the best block, when it is not stale. -/
theorem Best.take (hbest : Best s n q) (h : FreeList s bs out) (hn : 0 < n) (hst : ¬ s.Stale q) :
    ∃ s' bs', bestFitAllocPages n s = (takeBlock n q >>= fun _ => pure (some q)) s →
      bestFitAllocPages n s = .ok (some q) s' ∧ FreeList s' bs' ((q, n) :: out) ∧ s'.npage = s.npage ∧ Taken s s' n q := by
  obtain ⟨l₁, l₂, rfl⟩ := List.append_of_mem (h.listed_iff.mp hbest.listed)
  obtain ⟨s', bs', htake, hinv, hsame, -, hrest⟩ := takeBlock_spec h hst hn hbest.enough
  refine ⟨s', bs', fun hrun => ⟨?_, hinv, hsame.npage, fun z hz => ?_, fun i hi hi' => ?_⟩⟩
  · rw [hrun, Proc.bind_ok htake, Proc.pure_run]
  · exact hinv.freeApart (q, n) (by simp) z (hinv.listed_iff.mp hz)
  · obtain ⟨hmem, hblock⟩ := hrest (by omega)
    refine ⟨q + n, hinv.listed_iff.mpr hmem, hi, ?_⟩
    have hprop : (s'.pages (q + n)).property = (s.pages q).property - n := congrArg Prod.snd hblock
    omega

namespace PmmRun

variable {r r' : PmmRun} {op : PmmOp}

theorem BestInit.inv (h : r.BestInit) : r.BestInv := by
  obtain ⟨s, hsmall, hres, rfl⟩ := h
  have hinit : Init { pmm := bestFitInit s, out := [], given := 0 } := ⟨s, by omega, hres, rfl⟩
  exact ⟨hinit.inv.1, hsmall⟩

/-- **One call** that follows no stale pointer keeps the invariant. -/
theorem BestInv.step (h : r.BestInv) (hok : op.BestOk r) (hs : r.bestStep op = some r') : r'.BestInv := by
  obtain ⟨⟨bs, hfl⟩, hsmall⟩ := h
  cases op with
  | initMemmap base n =>
    simp only [bestStep] at hs
    split at hs
    · rename_i hle
      split at hs
      · rename_i s' hrun
        obtain rfl := Option.some.inj hs
        obtain ⟨_, s₁, hc, hrun₁⟩ := Proc.bind_eq_ok.mp hrun
        obtain ⟨hn, rfl⟩ := Proc.check_eq_ok.mp hc
        obtain ⟨_, s₂, hpages, hrun₂⟩ := Proc.bind_eq_ok.mp hrun₁
        obtain ⟨hres, rfl⟩ := memmapPages_run hpages
        obtain ⟨s₃, bs', hlink, hinv, hnp⟩ := linkBlockBreak_spec (hfl.adopt hn hle hres) hok
        obtain rfl : s₃ = s' := by simpa using hlink.symm.trans hrun₂
        refine ⟨⟨bs', hinv⟩, ?_⟩
        show s₃.npage + 1 < 2 ^ 32
        rw [hnp]
        exact hsmall
      · cases hs
    · cases hs
  | allocPages n =>
    by_cases hn : 0 < n
    · simp only [bestStep] at hs
      rcases bestFitAllocPages_spec hfl hsmall hn with ⟨hrun, -⟩ | ⟨q, hbest, hrun⟩
      · rw [hrun] at hs
        obtain rfl := Option.some.inj hs
        exact ⟨⟨bs, hfl⟩, hsmall⟩
      · obtain ⟨s', bs', htake⟩ := hbest.take hfl hn (hok q hbest)
        obtain ⟨hrun', hinv, hnp, -⟩ := htake hrun
        rw [hrun'] at hs
        obtain rfl := Option.some.inj hs
        refine ⟨⟨bs', hinv⟩, ?_⟩
        show s'.npage + 1 < 2 ^ 32
        rw [hnp]
        exact hsmall
    · -- `assert(n > 0)`
      have hrun : bestFitAllocPages n r.pmm = .panic .zeroPages := by
        unfold bestFitAllocPages
        exact Proc.check_bind_neg hn _ _
      simp only [bestStep, hrun] at hs
      cases hs
  | freePages base n =>
    simp only [bestStep] at hs
    split at hs
    · rename_i hmem
      have hfl' := hfl.perm (List.perm_cons_erase hmem)
      obtain ⟨s', bs', hrun, hinv, -, hnp⟩ := defaultFreePages_spec hfl' hok
      rw [show bestFitFreePages base n r.pmm = .ok () s' from hrun] at hs
      obtain rfl := Option.some.inj hs
      refine ⟨⟨bs', hinv⟩, ?_⟩
      show s'.npage + 1 < 2 ^ 32
      rw [hnp]
      exact hsmall
    · cases hs

theorem BestInv.fitsBest (h : r.BestInv) {n : Nat} (hn : 0 < n) : ∃ res s', FitsBest r n res s' := by
  obtain ⟨⟨bs, hfl⟩, hsmall⟩ := h
  rcases bestFitAllocPages_spec hfl hsmall hn with ⟨hrun, hall⟩ | ⟨q, hbest, hrun⟩
  · exact ⟨none, r.pmm, hrun, iff_of_true rfl hall, by simp, by simp⟩
  · have hnone : ¬ ∀ z, Listed r.pmm z → (r.pmm.pages z).property < n :=
      fun hall => absurd (hall q hbest.listed) (Nat.not_lt.mpr hbest.enough)
    by_cases hst : r.pmm.Stale q
    · obtain ⟨s', htake⟩ := takeBlock_returns n q r.pmm
      refine ⟨some q, s', ?_, iff_of_false (by simp) hnone, fun p hp => ?_, fun hok => absurd hst (hok q hbest)⟩
      · rw [hrun, Proc.bind_ok htake, Proc.pure_run]
      · obtain rfl := Option.some.inj hp
        exact hbest
    · obtain ⟨s', bs', htake⟩ := hbest.take hfl hn hst
      obtain ⟨hrun', -, -, htaken⟩ := htake hrun
      refine ⟨some q, s', hrun', iff_of_false (by simp) hnone, fun p hp => ?_, fun _ p hp => ?_⟩
      · obtain rfl := Option.some.inj hp
        exact hbest
      · obtain rfl := Option.some.inj hp
        exact htaken

end PmmRun

/-- The runs of the best-fit allocator in which every call meets `ok`. -/
abbrev BestReaches (ok : PmmRun → PmmOp → Prop) : PmmRun → Prop :=
  Reaches PmmRun.BestInit (fun r op r' => r.bestStep op = some r') ok

/-- **Runs that follow no stale pointer** give the best block to every request, and take it off the list. -/
theorem best_fit_reached {r : PmmRun} (h : BestReaches (fun r op => op.BestOk r) r) :
    ∀ n, 0 < n → ∃ res s', FitsBest r n res s' := by
  have hinv : r.BestInv := h.invariant (fun _ h0 => h0.inv) (fun _ _ _ hi hok hs => hi.step hok hs)
  exact fun n hn => hinv.fitsBest hn

theorem sixPages_bestInit : sixPages.BestInit := ⟨_, by decide, fun _ _ => rfl, rfl⟩

/-- Six pages on the list: the request for two gets the first two. -/
theorem best_fit_reached_sixPages : ∃ r s', sixPages.bestStep (.initMemmap 0 6) = some r ∧ FitsBest r 2 (some 0) s' := by
  let r := (sixPages.bestStep (.initMemmap 0 6)).get rfl
  have hok : (PmmOp.initMemmap 0 6).BestOk sixPages := by
    intro l q hl
    cases l with
    | nil => exact Link.noConfusion (show Link.freeList = .page q from hl)
    | cons z l => exact Link.noConfusion (show Link.freeList = .page z from hl.1)
  have hr : BestReaches (fun r op => op.BestOk r) r :=
    (Reaches.start sixPages_bestInit).next hok (show sixPages.bestStep _ = some r from rfl)
  obtain ⟨res, s', hfits⟩ := best_fit_reached hr 2 (by decide)
  have hres : res = some 0 := by
    have hrun := hfits.run
    have hgot : (bestFitAllocPages 2 r.pmm).test (fun res _ => res == some 0) = true := by decide +kernel
    rw [hrun] at hgot
    simpa [Outcome.test] using hgot
  rw [hres] at hfits
  exact ⟨r, s', rfl, hfits⟩

/-- **The stale pointer in a run.** The blocks at 0 and 3 are freed in this order, so that the second one is stale; it is the
    better one for a request for one page, and stays on the list. -/
theorem best_fit_keeps_taken : ¬ ∀ r, BestReaches (fun _ _ => True) r → ∀ n, 0 < n → ∃ res s', FitsBest r n res s' ∧
    ∀ q, res = some q → Taken r.pmm s' n q := by
  intro hall
  let r := ([.initMemmap 0 6, .allocPages 2, .allocPages 1, .allocPages 1, .allocPages 2, .freePages 0 2,
    .freePages 3 1].foldlM PmmRun.bestStep sixPages).get (by decide +kernel)
  have hr : BestReaches (fun _ _ => True) r := Reaches.foldlM (Option.some_get _).symm (.start sixPages_bestInit)
  obtain ⟨res, s', hfits, htaken⟩ := hall r hr 1 (by decide)
  -- page 3 is handed out, and is the second entry of the list afterwards
  have hrun : (bestFitAllocPages 1 r.pmm).test (fun res s =>
      decide (res = some 3 ∧ (listNext s.link)^[2] .freeList = .page 3 ∧ (s.pages 3).property = 1)) = true := by
    decide +kernel
  rw [hfits.run] at hrun
  obtain ⟨hres, hlist, hprop⟩ := of_decide_eq_true hrun
  have hap := (htaken 3 hres).gone 3 ⟨2, hlist⟩
  simp only [Apart, Pmm.block, hprop] at hap
  omega

end Ucore
