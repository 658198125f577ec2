import Ucore.Lib.Run
import Ucore.Mm.PmmSpec

/-!
# `Mm.PmmRun` — runs of the first-fit allocator

The system is the allocator together with its callers' books: the blocks now handed out and the number
of pages given to it. A step is one call; a call that stops the machine has no successor. Callers free
only what they hold, and give the allocator pages that exist.

The insertion loop leaves the `prev` pointer of a block linked behind the last one stale
(`insertLoop_last`). A later call that follows a stale pointer corrupts the list: an allocation then
leaves the block on the list it was taken from. `PmmOp.Ok` says that a call follows none; in runs of such
calls the free list is what it should be (`pmm_safe`).
-/

namespace Ucore

structure PmmRun where
  pmm : Pmm
  out : List (Nat × Nat)
  given : Nat

inductive PmmOp where
  | initMemmap (base n : Nat)
  | allocPages (n : Nat)
  | freePages (base n : Nat)

namespace PmmRun

/-- `page_init` reserves every page, `default_init` makes the list empty. -/
def Init (r : PmmRun) : Prop :=
  ∃ s : Pmm, s.npage < 2 ^ 32 ∧ (∀ i, i < s.npage → (s.pages i).pgReserved = true) ∧
    r = { pmm := defaultInit s, out := [], given := 0 }

/-- One call. -/
def step (r : PmmRun) : PmmOp → Option PmmRun
  | .initMemmap base n =>
    if base + n ≤ r.pmm.npage then
      match defaultInitMemmap base n r.pmm with
      | .ok _ s => some { r with pmm := s, given := r.given + n }
      | _       => none
    else none
  | .allocPages n =>
    match defaultAllocPages n r.pmm with
    | .ok (some page) s => some { r with pmm := s, out := (page, n) :: r.out }
    | .ok none s        => some { r with pmm := s }
    | _                 => none
  | .freePages base n =>
    if (base, n) ∈ r.out then
      match defaultFreePages base n r.pmm with
      | .ok _ s => some { r with pmm := s, out := r.out.erase (base, n) }
      | _       => none
    else none

/-- What the allocator owes its callers. -/
structure Safe (r : PmmRun) : Prop where
  outApart : r.out.Pairwise Apart
  freeApart : ∀ k q, (listNext r.pmm.link)^[k] .freeList = .page q →
    ∀ b ∈ r.out, Apart (r.pmm.block q) b
  accounted : defaultNrFreePages r.pmm + (r.out.map (·.2)).sum = r.given

end PmmRun

/-- The call follows no stale `prev` pointer: an allocation does not take a stale block, and nothing is
    linked in front of one. -/
def PmmOp.Ok (r : PmmRun) : PmmOp → Prop
  | .initMemmap base _ => r.pmm.LinkOk base
  | .freePages base _  => r.pmm.LinkOk base
  | .allocPages n      => n ≤ r.pmm.nrFree → ∀ l q, ListedBefore r.pmm l q →
      (∀ z ∈ l, (r.pmm.pages z).property < n) → n ≤ (r.pmm.pages q).property → ¬ r.pmm.Stale q

/-! ## The calls -/

variable {s : Pmm} {bs : List Nat} {out : List (Nat × Nat)} {base n q : Nat}

/-- `default_init_memmap` adopts reserved pages; until they are linked they count as a block in use. -/
theorem FreeList.adopt (h : FreeList s bs out) (hn : 0 < n) (hle : base + n ≤ s.npage)
    (hres : ∀ i, base ≤ i → i < base + n → (s.pages i).pgReserved = true) :
    FreeList (s.adopted base n) bs ((base, n) :: out) := by
  have hapart : ∀ b, s.Usable b → Apart (base, n) b := by
    intro b hb
    -- a common page would be reserved and not reserved
    by_contra hc
    simp only [Apart, not_or, Nat.not_le] at hc
    have hpos := hb.1
    have h1 := (hb.2 (max base b.1) (by omega) (by omega)).2
    rw [hres (max base b.1) (by omega) (by omega)] at h1
    exact Bool.noConfusion h1
  have hprop : ∀ q ∈ bs, (s.adopted base n).pages q = s.pages q := by
    intro q hq
    have hap := hapart _ (h.usable q hq)
    have hpos := h.prop_pos hq
    simp only [Apart, Pmm.block] at hap
    exact Pmm.adopted_out (by omega)
  have hblk : ∀ q ∈ bs, (s.adopted base n).block q = s.block q := fun q hq => by
    unfold Pmm.block
    rw [hprop q hq]
  have huse : ∀ b, s.Usable b → (s.adopted base n).Usable b := by
    intro b hb
    refine ⟨hb.1, fun i h1 h2 => ⟨(hb.2 i h1 h2).1, ?_⟩⟩
    by_cases hi : base ≤ i ∧ i < base + n
    · rw [Pmm.adopted_in hi]
    · rw [Pmm.adopted_out hi]; exact (hb.2 i h1 h2).2
  refine ⟨h.ring, h.back, ?_, ?_, ?_, ?_, ?_, ?_, ?_, h.small⟩
  · exact h.sorted.imp_of_mem fun {a b} ha _ hab => by rw [hprop a ha]; exact hab
  · intro q hq
    rw [hblk q hq]
    exact huse _ (h.usable q hq)
  · intro i hi hri
    by_cases hin : base ≤ i ∧ i < base + n
    · rw [Pmm.adopted_in hin]
      refine iff_of_false Bool.false_ne_true fun hm => ?_
      have hap := hapart _ (h.usable i hm)
      have hpos := h.prop_pos hm
      simp only [Apart, Pmm.block] at hap
      omega
    · rw [Pmm.adopted_out hin] at hri ⊢
      exact h.flag i hi hri
  · intro b hb
    rcases List.mem_cons.mp hb with rfl | hb
    · refine ⟨hn, fun i h1 h2 => ⟨?_, ?_⟩⟩
      · show i < s.npage
        omega
      · rw [Pmm.adopted_in ⟨h1, h2⟩]
    · exact huse b (h.outUsable b hb)
  · exact List.pairwise_cons.mpr ⟨fun b hb => hapart b (h.outUsable b hb), h.outApart⟩
  · intro b hb q hq
    rw [hblk q hq]
    rcases List.mem_cons.mp hb with rfl | hb
    · exact (hapart _ (h.usable q hq)).symm
    · exact h.freeApart b hb q hq
  · show s.nrFree = _
    rw [h.count]
    exact congrArg List.sum (List.map_congr_left fun q hq => by rw [hprop q hq])

theorem defaultInitMemmap_spec (h : FreeList s bs out) (hle : base + n ≤ s.npage)
    (hok : s.LinkOk base) {s' : Pmm} (hrun : defaultInitMemmap base n s = .ok () s') :
    ∃ bs', FreeList s' bs' out ∧ s'.nrFree = s.nrFree + n := by
  obtain ⟨_, s₁, hc, hrun₁⟩ := Proc.bind_eq_ok.mp hrun
  obtain ⟨hn, rfl⟩ := Proc.check_eq_ok.mp hc
  obtain ⟨_, s₂, hpages, hrun₂⟩ := Proc.bind_eq_ok.mp hrun₁
  obtain ⟨hres, rfl⟩ := memmapPages_run hpages
  obtain ⟨s₃, l₁, l₂, hlink, -, hl⟩ := linkBlock_spec (h.adopt hn hle hres) hok
  rw [hlink] at hrun₂
  obtain rfl : s₃ = s' := by simpa using hrun₂
  exact ⟨_, hl.inv, hl.nrFree⟩

/-- Freeing a block in use, not in front of a stale entry, puts it on the list. -/
theorem defaultFreePages_spec (h : FreeList s bs ((base, n) :: out)) (hok : s.LinkOk base) :
    ∃ s' bs', defaultFreePages base n s = .ok () s' ∧ FreeList s' bs' out ∧
      s'.nrFree = s.nrFree + n ∧ s'.npage = s.npage := by
  have hus := h.outUsable (base, n) (by simp)
  obtain ⟨s₁, hloop, hnp, hl, hnr, hpg⟩ := freePagesLoop_run (h.plain (b := (base, n)) (by simp))
  have h₁ : FreeList s₁ bs ((base, n) :: out) :=
    h.congr hnp hl hnr (fun i => (hpg i).1) (fun i => (hpg i).2.1) (fun i => (hpg i).2.2)
  have hok₁ : s₁.LinkOk base := by
    unfold Pmm.LinkOk ListedBefore Pmm.Stale
    rw [hl]
    exact hok
  obtain ⟨s₂, l₁, l₂, hlink, -, hlk⟩ := linkBlock_spec h₁ hok₁
  obtain ⟨s₃, p, l, hprev, h₃, hs₃, hn₃, habove⟩ := mergePrev_spec hlk.inv hlk.fresh hlk.above
  obtain ⟨s₄, bs', hnext, h₄, hs₄, hn₄⟩ := mergeNext_spec h₃ habove
  refine ⟨s₄, bs', ?_, h₄, ?_, ?_⟩
  · unfold defaultFreePages
    rw [Proc.check_bind_pos hus.1, Proc.bind_ok hloop, Proc.bind_ok hlink, Proc.bind_ok hprev, hnext]
  · rw [hn₄, hn₃, hlk.nrFree, hnr]
  · rw [hs₄.npage, hs₃.npage, hlk.same.npage, hnp]

/-- Allocation takes the first listed block that is large enough; if it is not stale the list stays in
    order. -/
theorem defaultAllocPages_spec (h : FreeList s bs out) (hn : 0 < n)
    (hok : n ≤ s.nrFree → ∀ l q, ListedBefore s l q → (∀ z ∈ l, (s.pages z).property < n) →
      n ≤ (s.pages q).property → ¬ s.Stale q) :
    defaultAllocPages n s = .ok none s ∨
    ∃ page s' bs', defaultAllocPages n s = .ok (some page) s' ∧ FreeList s' bs' ((page, n) :: out) ∧
      s'.nrFree + n = s.nrFree := by
  unfold defaultAllocPages
  rw [Proc.check_bind_pos hn, Proc.get_bind]
  by_cases hlt : s.nrFree < n
  · rw [if_pos hlt]; exact Or.inl rfl
  · rw [if_neg hlt]
    have hsearch := searchLoop_run n s.fuel h.ring (by
      have := h.length_le
      show bs.length < s.npage + 2
      omega)
    rw [Proc.bind_ok hsearch]
    cases hfind : bs.find? (fun q => decide (n ≤ (s.pages q).property)) with
    | none => exact Or.inl rfl
    | some q =>
      obtain ⟨hq, l₁, l₂, rfl, hl₁⟩ := List.find?_eq_some_iff_append.mp hfind
      have hle : n ≤ (s.pages q).property := by simpa using hq
      have hbefore : ∀ z ∈ l₁, (s.pages z).property < n := fun z hz => by simpa using hl₁ z hz
      have hst := hok (Nat.le_of_not_lt hlt) l₁ q h.listedBefore hbefore hle
      obtain ⟨s', bs', htake, hinv, -, hnr, -⟩ := takeBlock_spec h hst hn hle
      refine Or.inr ⟨q, s', bs', ?_, hinv, hnr⟩
      show (takeBlock n q >>= fun _ => pure (some q)) s = _
      rw [Proc.bind_ok htake, Proc.pure_run]

/-! ## Runs -/

namespace PmmRun

/-- The invariant of runs: the free list is in order, and the books balance. -/
def Inv (r : PmmRun) : Prop :=
  (∃ bs, FreeList r.pmm bs r.out) ∧ r.pmm.nrFree + (r.out.map (·.2)).sum = r.given

theorem Init.inv {r : PmmRun} (h : r.Init) : r.Inv := by
  obtain ⟨s, hsmall, hres, rfl⟩ := h
  refine ⟨⟨[], ?_⟩, rfl⟩
  refine ⟨?_, trivial, List.Pairwise.nil, by simp, ?_, by simp, List.Pairwise.nil, by simp, rfl, hsmall⟩
  · show listNext (listInit s.link .freeList) .freeList = .freeList
    rw [listNext_listInit, Function.update_self]
  · intro i hi hr
    exact absurd ((hres i hi).symm.trans hr) (by simp)

theorem sum_erase {l : List (Nat × Nat)} {b : Nat × Nat} (hb : b ∈ l) :
    b.2 + ((l.erase b).map (·.2)).sum = (l.map (·.2)).sum := by
  have hp := ((List.perm_cons_erase hb).map (·.2)).sum_nat
  rw [hp, List.map_cons, List.sum_cons]

/-- **One call** that follows no stale pointer keeps the invariant. -/
theorem inv_step {r r' : PmmRun} {op : PmmOp} (h : r.Inv) (hok : op.Ok r)
    (hs : r.step op = some r') : r'.Inv := by
  obtain ⟨⟨bs, hfl⟩, hbook⟩ := h
  cases op with
  | initMemmap base n =>
    simp only [step] at hs
    split at hs
    · rename_i hle
      split at hs
      · rename_i s' hrun
        obtain rfl := Option.some.inj hs
        obtain ⟨bs', hinv, hnr⟩ := defaultInitMemmap_spec hfl hle hok hrun
        refine ⟨⟨bs', hinv⟩, ?_⟩
        show s'.nrFree + (r.out.map (·.2)).sum = r.given + n
        omega
      · cases hs
    · cases hs
  | allocPages n =>
    by_cases hn : 0 < n
    · simp only [step] at hs
      rcases defaultAllocPages_spec hfl hn hok with hrun | ⟨page, s', bs', hrun, hinv, hnr⟩
      · rw [hrun] at hs
        obtain rfl := Option.some.inj hs
        exact ⟨⟨bs, hfl⟩, hbook⟩
      · rw [hrun] at hs
        obtain rfl := Option.some.inj hs
        refine ⟨⟨bs', hinv⟩, ?_⟩
        show s'.nrFree + (((page, n) :: r.out).map (·.2)).sum = r.given
        rw [List.map_cons, List.sum_cons]
        omega
    · -- `assert(n > 0)`
      have hrun : defaultAllocPages n r.pmm = .panic .zeroPages := by
        unfold defaultAllocPages
        exact Proc.check_bind_neg hn _ _
      simp only [step, hrun] at hs
      cases hs
  | freePages base n =>
    simp only [step] at hs
    split at hs
    · rename_i hmem
      have hfl' := hfl.perm (List.perm_cons_erase hmem)
      obtain ⟨s', bs', hrun, hinv, hnr, -⟩ := defaultFreePages_spec hfl' hok
      rw [hrun] at hs
      obtain rfl := Option.some.inj hs
      refine ⟨⟨bs', hinv⟩, ?_⟩
      have hsum := sum_erase hmem
      show s'.nrFree + ((r.out.erase (base, n)).map (·.2)).sum = r.given
      omega
    · cases hs

/-- Allocating and freeing under the same condition never stops the machine. -/
theorem step_isSome {r : PmmRun} {op : PmmOp} (h : r.Inv) (hok : op.Ok r)
    (hop : (∃ n, 0 < n ∧ op = .allocPages n) ∨ ∃ b ∈ r.out, op = .freePages b.1 b.2) :
    (r.step op).isSome := by
  obtain ⟨⟨bs, hfl⟩, -⟩ := h
  rcases hop with ⟨n, hn, rfl⟩ | ⟨b, hb, rfl⟩
  · rcases defaultAllocPages_spec hfl hn hok with hrun | ⟨page, s', bs', hrun, -⟩
    · simp [step, hrun]
    · simp [step, hrun]
  · obtain ⟨s', bs', hrun, -⟩ := defaultFreePages_spec (hfl.perm (List.perm_cons_erase hb)) hok
    simp [step, hb, hrun]

/-- The invariant speaks about `bs`; what is reachable from `free_list` is exactly `bs`. -/
theorem Inv.safe {r : PmmRun} (h : r.Inv) : r.Safe := by
  obtain ⟨⟨bs, hfl⟩, hbook⟩ := h
  refine ⟨hfl.outApart, fun k q hk b hb => ?_, hbook⟩
  have hmem := hfl.ring.iterate_mem k
  rw [hk] at hmem
  rcases List.mem_cons.mp hmem with he | hmem
  · exact Link.noConfusion he
  · obtain ⟨q', hq', he⟩ := List.mem_map.mp hmem
    obtain rfl := Link.page.inj he
    exact hfl.freeApart b hb q' hq'

end PmmRun

/-- The runs of the allocator in which every call meets `ok`. -/
abbrev PmmReaches (ok : PmmRun → PmmOp → Prop) : PmmRun → Prop :=
  Reaches PmmRun.Init (fun r op r' => r.step op = some r') ok

/-- **Runs that follow no stale pointer are safe**: the blocks handed out are apart from each other and
    from everything reachable from `free_list`, and every page is accounted for. -/
theorem pmm_safe {r : PmmRun} (h : PmmReaches (fun r op => op.Ok r) r) : r.Safe := by
  have hinv : r.Inv := h.invariant (fun _ h0 => h0.inv) (fun _ _ _ hi hok hs => PmmRun.inv_step hi hok hs)
  exact hinv.safe

/-- An allocator with six pages, before `init_memmap`. -/
def sixPages : PmmRun where
  pmm := defaultInit {
    npage := 6
    pages := fun _ => { ref := 0, pgReserved := true, pgProperty := false, property := 0 }
    link := fun _ => { prev := .freeList, next := .freeList }
    nrFree := 0 }
  out := []
  given := 0

theorem sixPages_init : sixPages.Init := ⟨_, by decide, fun _ _ => rfl, rfl⟩

theorem pmm_safe_sixPages :
    ∃ r, (sixPages.step (.initMemmap 0 6)).bind (·.step (.allocPages 2)) = some r ∧ r.Safe := by
  let r₁ := (sixPages.step (.initMemmap 0 6)).get rfl
  have hok₀ : (PmmOp.initMemmap 0 6).Ok sixPages := by
    intro l q hl
    cases l with
    | nil => exact Link.noConfusion (show Link.freeList = .page q from hl)
    | cons z l => exact Link.noConfusion (show Link.freeList = .page z from hl.1)
  have hok₁ : (PmmOp.allocPages 2).Ok r₁ := by
    intro _ l q hl hlt _
    cases l with
    | nil =>
      obtain rfl := Link.page.inj (show Link.page 0 = .page q from hl)
      exact fun he => Link.noConfusion (show Link.freeList = .page 0 from he)
    | cons z l =>
      obtain rfl := Link.page.inj (show Link.page 0 = .page z from hl.1)
      exact absurd (hlt 0 (by simp)) (show ¬ (6 < 2) by decide)
  refine ⟨(r₁.step (.allocPages 2)).get rfl, rfl, pmm_safe ?_⟩
  exact ((Reaches.start sixPages_init).next hok₀ (show sixPages.step _ = some r₁ from rfl)).next hok₁ rfl

/-- **The stale pointer in a run.** The blocks at 0, 2 and 4 are freed in this order, so that the last
    one is stale; allocating two pages hands it out, and allocating two pages again hands it out again. -/
theorem pmm_hands_out_twice : ¬ ∀ r, PmmReaches (fun _ _ => True) r → r.Safe := by
  intro hall
  have hrun : ([.initMemmap 0 6, .allocPages 1, .allocPages 1, .allocPages 1, .allocPages 1,
      .allocPages 2, .freePages 0 1, .freePages 2 1, .freePages 4 2, .allocPages 2,
      .allocPages 2].foldlM PmmRun.step sixPages).map (·.out) = some [(4, 2), (4, 2), (3, 1), (1, 1)] := by
    decide +kernel
  obtain ⟨r, hr, hout⟩ := Option.map_eq_some_iff.mp hrun
  have hsafe := (hall r (Reaches.foldlM hr (.start sixPages_init))).outApart
  rw [hout] at hsafe
  exact absurd hsafe (by decide)

end Ucore
