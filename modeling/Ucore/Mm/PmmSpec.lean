import Ucore.Mm.PmmInv

/-!
# `Mm.PmmSpec` — what each allocator function does to the free list

One lemma per function of `DefaultPmm`, over the invariant `FreeList`: the loops over the ring are walked
once, here, and the calls are then composed from these lemmas alone. A stale `prev` pointer enters only
as the hypothesis of `linkBlock_spec` and `takeBlock_spec` that the entry whose `prev` is followed is not
stale.
-/

namespace Ucore

variable {s : Pmm} {bs l₁ l₂ : List Nat} {out : List (Nat × Nat)} {base n q : Nat}

/-! ## The walks -/

/-- The search loop stops at the first listed block of at least `n` pages. -/
theorem searchLoop_run (n fuel : Nat) {le : Link}
    (hring : Seg (listNext s.link) le (bs.map .page) .freeList) (hfuel : bs.length < fuel) :
    searchLoop n fuel le s = .ok (bs.find? fun q => decide (n ≤ (s.pages q).property)) s := by
  induction bs generalizing fuel le with
  | nil =>
    obtain ⟨f, rfl⟩ : ∃ f, fuel = f + 1 := ⟨fuel - 1, by simp at hfuel; omega⟩
    simp only [List.map_nil, Seg.nil] at hring
    simp [searchLoop, hring]
  | cons q bs ih =>
    obtain ⟨f, rfl⟩ : ∃ f, fuel = f + 1 := ⟨fuel - 1, by simp at hfuel; omega⟩
    obtain ⟨hq, hrest⟩ := hring
    simp only [searchLoop, Proc.get_bind, hq]
    by_cases hn : n ≤ (s.pages q).property
    · simp [le2page, hn]
    · simp only [le2page, reduceCtorEq, if_false, hn]
      rw [ih f hrest (by simpa using hfuel)]
      simp [hn]

/-- The insertion loop walks past the blocks below `base`. -/
theorem insertLoop_skip {fuel : Nat} {le c : Link} (hc : c ≠ .freeList)
    (hring : Seg (listNext s.link) le (l₁.map .page) c) (h₁ : ∀ q ∈ l₁, q < base) :
    insertLoop base (fuel + l₁.length) le s
      = insertLoop base fuel ((l₁.map Link.page).getLastD le) s := by
  induction l₁ generalizing le with
  | nil => rfl
  | cons q l₁ ih =>
    obtain ⟨hq, hrest⟩ := hring
    have hlt : ¬ base < q := Nat.not_lt.mpr (Nat.le_of_lt (h₁ q (by simp)))
    have hnext : listNext s.link (.page q) ≠ .freeList := by
      rw [hrest.head]
      cases l₁ with
      | nil => simpa using hc
      | cons z l₁ => simp
    rw [List.length_cons, ← Nat.add_assoc, List.map_cons, List.getLastD_cons,
      ← ih hrest (fun z hz => h₁ z (List.mem_cons_of_mem _ hz))]
    simp only [insertLoop, Proc.get_bind, hq, le2page, hlt, hnext, if_false, reduceCtorEq]

/-- Insertion in front of the first block above `base`. -/
theorem insertLoop_before {fuel : Nat}
    (hring : Seg (listNext s.link) .freeList ((l₁ ++ q :: l₂).map .page) .freeList)
    (h₁ : ∀ z ∈ l₁, z < base) (hq : base < q) (hfuel : l₁.length < fuel) :
    insertLoop base fuel .freeList s
      = .ok () (s.setLink (listAddBefore · (.page q) (.page base))) := by
  obtain ⟨f, rfl⟩ : ∃ f, fuel = f + 1 + l₁.length := ⟨fuel - 1 - l₁.length, by omega⟩
  rw [List.map_append, List.map_cons, Seg.append] at hring
  rw [insertLoop_skip (by simp) hring.1 h₁]
  simp only [insertLoop, Proc.get_bind, hring.1.last, le2page, reduceCtorEq, if_false, hq, if_true,
    Proc.modify_run]

/-- Insertion behind the last block `q`: the loop visits `base` next and links it behind itself. -/
theorem insertLoop_last {fuel : Nat}
    (hring : Seg (listNext s.link) .freeList ((l₁ ++ [q]).map .page) .freeList)
    (h₁ : ∀ z ∈ l₁ ++ [q], z < base) (hfuel : l₁.length + 2 < fuel) :
    insertLoop base fuel .freeList s
      = .ok () ((s.setLink (listAdd · (.page q) (.page base))).setLink
          (listAdd · (.page base) (.page base))) := by
  obtain ⟨f, rfl⟩ : ∃ f, fuel = f + 1 + 1 + 1 + l₁.length := ⟨fuel - 3 - l₁.length, by omega⟩
  rw [List.map_append, List.map_cons, Seg.append] at hring
  rw [insertLoop_skip (by simp) hring.1 (fun z hz => h₁ z (List.mem_append_left _ hz))]
  have hq : ¬ base < q := Nat.not_lt.mpr (Nat.le_of_lt (h₁ q (by simp)))
  have hne : Link.page q ≠ Link.page base := fun he =>
    absurd (h₁ q (by simp)) (by rw [Link.page.inj he]; exact Nat.lt_irrefl _)
  have hend : listNext s.link (.page q) = .freeList := hring.2
  -- `base` is now the next entry of `q`, and the last one
  have h1 : listNext (listAdd s.link (.page q) (.page base)) (.page q) = .page base := by
    rw [listAdd, listAddAfter, listNext_rawListAdd, Function.update_of_ne hne, Function.update_self]
  have h2 : listNext (listAdd s.link (.page q) (.page base)) (.page base) = .freeList := by
    rw [listAdd, listAddAfter, listNext_rawListAdd, Function.update_self, hend]
  have h3 : listNext (listAdd (listAdd s.link (.page q) (.page base)) (.page base) (.page base))
      (.page base) = .freeList := by
    rw [listAdd, listAddAfter, listNext_rawListAdd, Function.update_self, h2]
  rw [insertLoop]
  simp only [Proc.get_bind, hring.1.last, le2page, reduceCtorEq, if_false, hq, hend, if_true,
    Proc.modify_bind]
  rw [insertLoop]
  simp only [Proc.get_bind, Pmm.link_setLink, h1, h2, le2page, reduceCtorEq, if_false,
    Nat.lt_irrefl, if_true, Proc.modify_bind]
  rw [insertLoop]
  simp only [Proc.get_bind, Pmm.link_setLink, h3, if_true, Proc.pure_run]

/-! ## The page loops -/

/-- The pages of `[p, p + n)` made plain pages of the allocator. -/
def Pmm.adopted (s : Pmm) (p n : Nat) : Pmm :=
  { s with pages := fun i => if p ≤ i ∧ i < p + n then
      { ref := 0, pgReserved := false, pgProperty := false, property := 0 } else s.pages i }

theorem Pmm.adopted_in {p i : Nat} (h : p ≤ i ∧ i < p + n) : (s.adopted p n).pages i
    = { ref := 0, pgReserved := false, pgProperty := false, property := 0 } := if_pos h

theorem Pmm.adopted_out {p i : Nat} (h : ¬ (p ≤ i ∧ i < p + n)) :
    (s.adopted p n).pages i = s.pages i := if_neg h

/-- What the page loop of `default_init_memmap` does when it comes through: the pages were reserved, and
    now are adopted. -/
theorem memmapPages_run {p n : Nat} {s' : Pmm} (h : memmapPages p n s = .ok () s') :
    (∀ i, p ≤ i → i < p + n → (s.pages i).pgReserved = true) ∧ s' = s.adopted p n := by
  induction n generalizing p s with
  | zero =>
    simp only [memmapPages, Proc.pure_run, Outcome.ok.injEq, true_and] at h
    subst h
    have hpages : (s.adopted p 0).pages = s.pages := by
      funext i
      exact Pmm.adopted_out (by omega)
    refine ⟨fun i h1 h2 => absurd h2 (by omega), ?_⟩
    show s = { s with pages := (s.adopted p 0).pages }
    rw [hpages]
  | succ n ih =>
    simp only [memmapPages, Proc.get_bind] at h
    obtain ⟨_, s₁, hc, hrun⟩ := Proc.bind_eq_ok.mp h
    obtain ⟨hres, rfl⟩ := Proc.check_eq_ok.mp hc
    rw [Proc.modify_bind] at hrun
    obtain ⟨hrest, rfl⟩ := ih hrun
    constructor
    · intro i h1 h2
      by_cases hi : i = p
      · rw [hi]; exact hres
      · have := hrest i (by omega) (by omega)
        simpa [hi] using this
    · simp only [Pmm.setPage, Pmm.adopted]
      congr 1
      funext i
      by_cases hi : i = p
      · subst hi
        rw [if_neg (by omega), if_pos (by omega), Function.update_self]
      · rw [Function.update_of_ne hi]
        by_cases hr : p + 1 ≤ i ∧ i < p + 1 + n
        · rw [if_pos hr, if_pos (by omega)]
        · rw [if_neg hr, if_neg (by omega)]

/-- The page loop of `default_free_pages` over pages in use: it only resets `ref`. -/
theorem freePagesLoop_run {p n : Nat}
    (h : ∀ i, p ≤ i → i < p + n → (s.pages i).pgReserved = false ∧ (s.pages i).pgProperty = false) :
    ∃ s', freePagesLoop p n s = .ok () s' ∧ s'.npage = s.npage ∧ s'.link = s.link ∧
      s'.nrFree = s.nrFree ∧ ∀ i, (s'.pages i).pgReserved = (s.pages i).pgReserved ∧
        (s'.pages i).pgProperty = (s.pages i).pgProperty ∧
        (s'.pages i).property = (s.pages i).property := by
  induction n generalizing p s with
  | zero => exact ⟨s, rfl, rfl, rfl, rfl, fun _ => ⟨rfl, rfl, rfl⟩⟩
  | succ n ih =>
    obtain ⟨hr, hg⟩ := h p (Nat.le_refl _) (by omega)
    let s₁ := s.setPage p { s.pages p with ref := 0, pgReserved := false, pgProperty := false }
    have hsame : ∀ i, (s₁.pages i).pgReserved = (s.pages i).pgReserved ∧
        (s₁.pages i).pgProperty = (s.pages i).pgProperty ∧
        (s₁.pages i).property = (s.pages i).property := by
      intro i
      by_cases hi : i = p
      · subst hi; simp [s₁, hr, hg]
      · simp [s₁, hi]
    obtain ⟨s', hrun, hnp, hl, hn, hpg⟩ := ih (s := s₁) (p := p + 1) (fun i h1 h2 => by
      rw [(hsame i).1, (hsame i).2.1]; exact h i (by omega) (by omega))
    refine ⟨s', ?_, hnp, hl, hn, fun i => ?_⟩
    · simp only [freePagesLoop, Proc.get_bind]
      rw [Proc.check_bind_pos (by simp [hr, hg]), Proc.modify_bind]
      exact hrun
    · obtain ⟨h1, h2, h3⟩ := hpg i
      exact ⟨h1.trans (hsame i).1, h2.trans (hsame i).2.1, h3.trans (hsame i).2.2⟩

/-! ## The list operations on the ring -/

namespace FreeList

/-- The members of a split list, seen as entries of the ring. -/
theorem links_append (l₁ l₂ : List Nat) :
    (l₁ ++ l₂).map Link.page = l₁.map Link.page ++ l₂.map Link.page := List.map_append

theorem page_not_mem_links {l : List Nat} {x : Nat} (hx : x ∉ l) :
    Link.page x ∉ Link.freeList :: l.map Link.page := by
  intro hm
  rcases List.mem_cons.mp hm with he | hm
  · exact Link.noConfusion he
  · obtain ⟨y, hy, he⟩ := List.mem_map.mp hm
    exact hx (Link.page.inj he ▸ hy)

/-- `__list_add` of a fresh entry between two neighbours of a ring of pages. -/
theorem ring_rawListAdd (l₁ l₂ : List Nat) {m : ListMem Link} {x : Nat}
    (hnd : (Link.freeList :: (l₁ ++ l₂).map .page).Nodup) (hx : x ∉ l₁ ++ l₂)
    (hring : Seg (listNext m) .freeList ((l₁ ++ l₂).map .page) .freeList)
    (hback : Back (listPrev m) .freeList ((l₁ ++ l₂).map .page)) :
    let m' := rawListAdd m (.page x) ((l₁.map Link.page).getLastD .freeList)
      ((l₂.map Link.page).headD .freeList)
    Seg (listNext m') .freeList ((l₁ ++ x :: l₂).map .page) .freeList ∧
      Back (listPrev m') .freeList ((l₁ ++ x :: l₂).map .page) := by
  intro m'
  have hx' := page_not_mem_links hx
  rw [links_append] at hnd hx' hring hback
  rw [links_append, List.map_cons]
  constructor
  · rw [listNext_rawListAdd]
    exact Seg.insert hnd hx' hring
  · rw [listPrev_rawListAdd]
    obtain ⟨hb, hnd⟩ := List.nodup_cons.mp hnd
    exact Back.insert hnd hb (fun hm => hx' (List.mem_cons_of_mem _ hm)) hback

/-- The two pointers of a listed block: `next` is right, `prev` is right unless stale. -/
theorem next_page (h : FreeList s (l₁ ++ q :: l₂) out) :
    listNext s.link (.page q) = (l₂.map Link.page).headD .freeList := by
  have hring := h.ring
  rw [links_append, List.map_cons, Seg.append] at hring
  exact hring.2.head

theorem prev_page (h : FreeList s (l₁ ++ q :: l₂) out) (hq : ¬ s.Stale q) :
    listPrev s.link (.page q) = (l₁.map Link.page).getLastD .freeList := by
  have hback := h.back
  rw [links_append, List.map_cons] at hback
  exact hback.pred hq

/-- `list_del` of a block whose `prev` pointer is not stale. -/
theorem listDel (h : FreeList s (l₁ ++ q :: l₂) out) (hq : ¬ s.Stale q) :
    Seg (listNext (listDel s.link (.page q))) .freeList ((l₁ ++ l₂).map .page) .freeList ∧
      Back (listPrev (listDel s.link (.page q))) .freeList ((l₁ ++ l₂).map .page) := by
  have hnd := h.nodup_links
  have hring := h.ring
  have hback := h.back
  rw [listNext_listDel, listPrev_listDel, h.next_page, h.prev_page hq]
  rw [links_append, List.map_cons] at hnd hring hback
  rw [links_append]
  obtain ⟨hb, hnd'⟩ := List.nodup_cons.mp hnd
  exact ⟨Seg.remove hnd hring, Back.remove hnd' hb hback⟩

end FreeList

/-! ## Linking -/

/-- No stale entry stands right above `base`: the condition under which `base` may be linked. -/
def Pmm.LinkOk (s : Pmm) (base : Nat) : Prop :=
  ∀ l q, ListedBefore s l q → (∀ z ∈ l, z < base) → base < q → ¬ s.Stale q

theorem FreeList.listedBefore (h : FreeList s (l₁ ++ q :: l₂) out) : ListedBefore s l₁ q := by
  have hring := h.ring
  rw [links_append, List.map_cons, Seg.append] at hring
  exact hring.1

/-- A list in ascending order splits around a number it does not hold. -/
theorem split_around {l : List Nat} (hs : l.Pairwise (· < ·)) (hb : base ∉ l) :
    ∃ l₁ l₂, l = l₁ ++ l₂ ∧ (∀ q ∈ l₁, q < base) ∧ ∀ q ∈ l₂, base < q := by
  induction l with
  | nil => exact ⟨[], [], rfl, by simp, by simp⟩
  | cons x l ih =>
    obtain ⟨hx, hs⟩ := List.pairwise_cons.mp hs
    by_cases hlt : base < x
    · refine ⟨[], x :: l, rfl, by simp, fun q hq => ?_⟩
      rcases List.mem_cons.mp hq with rfl | hq
      · exact hlt
      · exact Nat.lt_trans hlt (hx q hq)
    · obtain ⟨l₁, l₂, rfl, h₁, h₂⟩ := ih hs (fun hm => hb (List.mem_cons_of_mem _ hm))
      refine ⟨x :: l₁, l₂, rfl, fun q hq => ?_, h₂⟩
      rcases List.mem_cons.mp hq with rfl | hq
      · have hne : q ≠ base := fun he => hb (he ▸ List.mem_cons_self ..)
        omega
      · exact h₁ q hq

/-- The allocator owns the same pages in both states. -/
structure SamePages (s s' : Pmm) : Prop where
  npage : s'.npage = s.npage
  reserved : ∀ i, (s'.pages i).pgReserved = (s.pages i).pgReserved

theorem SamePages.refl (s : Pmm) : SamePages s s := ⟨rfl, fun _ => rfl⟩

theorem SamePages.trans {s₁ s₂ s₃ : Pmm} (h : SamePages s₁ s₂) (h' : SamePages s₂ s₃) :
    SamePages s₁ s₃ :=
  ⟨h'.npage.trans h.npage, fun i => (h'.reserved i).trans (h.reserved i)⟩

/-- What linking leaves behind: the block at `base` on the list, between the blocks below and above it.
    Its own `prev` pointer is right unless the block is the last one, where it is stale. -/
structure Linked (s s' : Pmm) (l₁ l₂ : List Nat) (base n : Nat) (out : List (Nat × Nat)) : Prop where
  inv : FreeList s' (l₁ ++ base :: l₂) out
  same : SamePages s s'
  nrFree : s'.nrFree = s.nrFree + n
  above : ∀ q ∈ l₂.head?, listPrev s'.link (.page q) = .page base
  fresh : s'.Stale base → l₂ = []

/-- The state of `linkBlock` before it touches the list. -/
def Pmm.asFree (s : Pmm) (base n : Nat) : Pmm :=
  ((s.setProperty base n).setPageProperty base).addNrFree n

/-- Past its first assignments `linkBlock` either starts the list or runs the insertion loop. -/
theorem linkBlock_run : linkBlock base n s = if listEmpty s.link .freeList then
      .ok () ((s.asFree base n).setLink (listAdd · .freeList (.page base)))
    else insertLoop base s.fuel .freeList (s.asFree base n) := by
  show (if listEmpty s.link .freeList then
      (Proc.modify fun s => s.setLink (listAdd · .freeList (.page base)))
    else insertLoop base s.fuel .freeList : PmmM Unit) (s.asFree base n) = _
  by_cases he : listEmpty s.link .freeList = true
  · rw [if_pos he, if_pos he]; rfl
  · rw [if_neg he, if_neg he]

/-- Stores that put `base` between `l₁` and `l₂` link the block. -/
theorem Linked.intro (l₁ l₂ : List Nat) (h : FreeList s (l₁ ++ l₂) ((base, n) :: out))
    (h₁ : ∀ q ∈ l₁, q < base) (h₂ : ∀ q ∈ l₂, base < q) {f : ListMem Link → ListMem Link}
    (hring : Seg (listNext (f s.link)) .freeList ((l₁ ++ base :: l₂).map .page) .freeList)
    (hback : Back (listPrev (f s.link)) .freeList ((l₁ ++ base :: l₂).map .page))
    (habove : ∀ q ∈ l₂.head?, listPrev (f s.link) (.page q) = .page base)
    (hfresh : listPrev (f s.link) (.page base) = .page base → l₂ = []) :
    Linked s ((s.asFree base n).setLink f) l₁ l₂ base n out := by
  have hroom : s.nrFree + n < 2 ^ 32 := by
    have hle := h.room
    have hlt := h.small
    simp only [List.map_cons, List.sum_cons] at hle
    omega
  refine ⟨h.link h₁ h₂ hroom rfl rfl rfl hring hback, ⟨rfl, fun i => ?_⟩, ?_, habove, hfresh⟩
  · simp [Pmm.asFree]
  · exact Nat.mod_eq_of_lt hroom

/-- On the empty list the block becomes its only entry. -/
theorem linkBlock_empty (h : FreeList s [] ((base, n) :: out)) :
    ∃ s', linkBlock base n s = .ok () s' ∧ Linked s s' [] [] base n out := by
  have hnext : listNext s.link .freeList = .freeList := by simpa using h.ring
  have hadd := FreeList.ring_rawListAdd [] [] (x := base) h.nodup_links (by simp)
    h.ring h.back
  refine ⟨(s.asFree base n).setLink (listAdd · .freeList (.page base)), ?_, ?_⟩
  · rw [linkBlock_run, if_pos (by rw [listEmpty, hnext]; exact decide_eq_true rfl)]
  · have hf : listAdd s.link .freeList (.page base)
        = rawListAdd s.link (.page base) .freeList .freeList := by
      rw [listAdd, listAddAfter, hnext]
    refine Linked.intro [] [] h (by simp) (by simp) ?_ ?_ (by simp) (fun _ => rfl)
    · rw [hf]; exact hadd.1
    · rw [hf]; exact hadd.2

/-- A list with an entry is not empty to `list_empty`. -/
theorem FreeList.not_listEmpty (h : FreeList s (l₁ ++ q :: l₂) out) :
    ¬ listEmpty s.link .freeList = true := by
  have hhead := h.ring.head
  cases l₁ <;> simp_all [listEmpty]

/-- In front of the first block above `base`, whose `prev` pointer leads to the end of `l₁`. -/
theorem linkBlock_before (h : FreeList s (l₁ ++ q :: l₂) ((base, n) :: out))
    (h₁ : ∀ z ∈ l₁, z < base) (h₂ : ∀ z ∈ q :: l₂, base < z) (hq : ¬ s.Stale q) :
    ∃ s', linkBlock base n s = .ok () s' ∧ Linked s s' l₁ (q :: l₂) base n out := by
  have hnot : base ∉ l₁ ++ q :: l₂ := h.out_not_mem (List.mem_cons_self ..)
  have hadd := FreeList.ring_rawListAdd _ _ h.nodup_links hnot h.ring h.back
  have hqb : Link.page q ≠ Link.page base := fun he =>
    absurd (h₂ q (by simp)) (by rw [Link.page.inj he]; exact Nat.lt_irrefl _)
  have hf : listAddBefore s.link (.page q) (.page base)
      = rawListAdd s.link (.page base) ((l₁.map Link.page).getLastD .freeList) (.page q) := by
    rw [listAddBefore, h.prev_page hq]
  refine ⟨(s.asFree base n).setLink (listAddBefore · (.page q) (.page base)), ?_, ?_⟩
  · rw [linkBlock_run, if_neg h.not_listEmpty]
    refine insertLoop_before (s := s.asFree base n) h.ring h₁ (h₂ q (by simp)) ?_
    have hlen := h.length_le
    simp only [List.length_append, List.length_cons] at hlen
    show l₁.length < s.npage + 2
    omega
  · refine Linked.intro _ _ h h₁ h₂ ?_ ?_ ?_ ?_
    · rw [hf]; exact hadd.1
    · rw [hf]; exact hadd.2
    · intro z hz
      obtain rfl : q = z := by simpa using hz
      rw [hf, listPrev_rawListAdd, Function.update_of_ne hqb, Function.update_self]
    · intro he
      rw [hf, listPrev_rawListAdd, Function.update_self] at he
      have hbase : Link.page base ∉ Link.freeList :: l₁.map Link.page :=
        FreeList.page_not_mem_links fun hm => hnot (List.mem_append_left _ hm)
      exact absurd (he ▸ List.getLastD_mem_cons) hbase

/-- Behind the last block, and then behind itself: the `next` side is as it should be, the entry's own
    `prev` pointer is stale. -/
theorem linkBlock_last {z : Nat} (h : FreeList s (l₁ ++ [z]) ((base, n) :: out))
    (h₁ : ∀ q ∈ l₁ ++ [z], q < base) :
    ∃ s', linkBlock base n s = .ok () s' ∧ Linked s s' (l₁ ++ [z]) [] base n out := by
  have hnot : base ∉ l₁ ++ [z] := h.out_not_mem (List.mem_cons_self ..)
  have hadd := FreeList.ring_rawListAdd (l₁ ++ [z]) [] (m := s.link) (x := base)
    (by rw [List.append_nil]; exact h.nodup_links) (by rwa [List.append_nil])
    (by rw [List.append_nil]; exact h.ring) (by rw [List.append_nil]; exact h.back)
  have hzlast : ((l₁ ++ [z]).map Link.page).getLastD .freeList = .page z := by simp
  rw [hzlast] at hadd
  have hend : listNext s.link (.page z) = .freeList := h.next_page
  let m := rawListAdd s.link (.page base) (.page z) .freeList
  have hm : listAdd s.link (.page z) (.page base) = m := by rw [listAdd, listAddAfter, hend]
  have hnext : listNext (listAdd m (.page base) (.page base)) = listNext m := by
    rw [listAdd, listAddAfter, listNext_rawListAdd, Function.update_idem, Function.update_eq_self]
  have hprev : listPrev (listAdd m (.page base) (.page base))
      = Function.update (Function.update (listPrev m) .freeList (.page base)) (.page base)
          (.page base) := by
    have hself : listNext m (.page base) = .freeList := by
      rw [listNext_rawListAdd, Function.update_self]
    rw [listAdd, listAddAfter, listPrev_rawListAdd, hself]
  refine ⟨(s.asFree base n).setLink
    fun m => listAdd (listAdd m (.page z) (.page base)) (.page base) (.page base), ?_, ?_⟩
  · rw [linkBlock_run, if_neg h.not_listEmpty]
    refine insertLoop_last (s := s.asFree base n) h.ring h₁ ?_
    have hlen := h.length_le
    simp only [List.length_append, List.length_cons, List.length_nil] at hlen
    show l₁.length + 2 < s.npage + 2
    omega
  · refine Linked.intro (l₁ ++ [z]) [] (by rwa [List.append_nil]) h₁ (by simp)
      ?_ ?_ (by simp) (fun _ => rfl)
    · rw [hm, hnext]; exact hadd.1
    · rw [hm, hprev]
      refine Back.update_self (Back.congr (fun y hy => ?_) hadd.2)
      exact Function.update_of_ne (fun he => by simp [he] at hy) _ _

/-- **Linking a block** that is not in front of a stale entry. -/
theorem linkBlock_spec (h : FreeList s bs ((base, n) :: out)) (hok : s.LinkOk base) :
    ∃ s' l₁ l₂, linkBlock base n s = .ok () s' ∧ bs = l₁ ++ l₂ ∧ Linked s s' l₁ l₂ base n out := by
  obtain ⟨l₁, l₂, rfl, h₁, h₂⟩ := split_around h.ascending (h.out_not_mem (List.mem_cons_self ..))
  cases l₂ with
  | cons q l₂ =>
    have hq : ¬ s.Stale q := hok l₁ q h.listedBefore h₁ (h₂ q (by simp))
    obtain ⟨s', hrun, hl⟩ := linkBlock_before h h₁ h₂ hq
    exact ⟨s', l₁, q :: l₂, hrun, rfl, hl⟩
  | nil =>
    rcases List.eq_nil_or_concat l₁ with rfl | ⟨l, z, rfl⟩
    · obtain ⟨s', hrun, hl⟩ := linkBlock_empty h
      exact ⟨s', [], [], hrun, rfl, hl⟩
    · rw [List.concat_eq_append, List.append_nil] at *
      obtain ⟨s', hrun, hl⟩ := linkBlock_last h h₁
      exact ⟨s', l ++ [z], [], hrun, (List.append_nil _).symm, hl⟩

/-! ## Taking a block -/

/-- `nr_free -= n` when at least `n` pages are free. -/
theorem FreeList.subNrFree (h : FreeList s bs out) (hle : n ≤ s.nrFree) :
    (s.subNrFree n).nrFree + n = s.nrFree := by
  have hroom := h.room
  have hsmall := h.small
  show (s.nrFree + (2 ^ 32 - n % 2 ^ 32)) % 2 ^ 32 + n = s.nrFree
  omega

theorem FreeList.prop_le (h : FreeList s (l₁ ++ q :: l₂) out) :
    (s.pages q).property ≤ s.nrFree := by
  rw [h.count, List.map_append, List.map_cons, List.sum_append, List.sum_cons]
  omega

theorem splitBlock_whole {prev : Link} (h : ¬ n < (s.pages q).property) :
    splitBlock n q prev s = .ok () s := by
  show (if n < (s.pages q).property then _ else pure () : PmmM Unit) s = _
  rw [if_neg h]
  rfl

theorem splitBlock_cut {prev : Link} (h : n < (s.pages q).property) :
    splitBlock n q prev s = .ok () (((s.setProperty (q + n)
      ((s.pages q).property - n)).setPageProperty (q + n)).setLink (listAdd · prev (.page (q + n)))) := by
  show (if n < (s.pages q).property then _ else pure () : PmmM Unit) s = _
  rw [if_pos h]
  rfl

/-- A block of exactly `n` pages comes off the list whole. -/
theorem takeBlock_whole (h : FreeList s (l₁ ++ q :: l₂) out) (hq : ¬ s.Stale q)
    (hn : (s.pages q).property = n) :
    ∃ s', takeBlock n q s = .ok () s' ∧ FreeList s' (l₁ ++ l₂) ((q, n) :: out) ∧ SamePages s s' ∧
      s'.nrFree + n = s.nrFree := by
  have hle : n ≤ s.nrFree := hn ▸ h.prop_le
  have hdel := h.listDel hq
  let s' := ((s.setLink (listDel · (.page q))).subNrFree n).clearPageProperty q
  have hinv : FreeList s' (l₁ ++ l₂) (s.block q :: out) := by
    refine h.take (fun i _ => ?_) (fun i => ?_) (fun i => ?_) rfl ?_ hdel.1 hdel.2
    · simp [s']
    · simp [s']
    · simp [s']
    · rw [hn]; exact h.subNrFree hle
  refine ⟨s', ?_, ?_, ⟨rfl, fun i => by simp [s']⟩, h.subNrFree hle⟩
  · simp only [takeBlock, Proc.get_bind, Proc.modify_bind]
    rw [Proc.bind_ok (splitBlock_whole (by simp [hn]))]
    rfl
  · rw [← hn]; exact hinv

/-- The tail of a block is on the list as no block of its own. -/
theorem FreeList.tail_fresh (h : FreeList s (l₁ ++ q :: l₂) out) (hn : 0 < n) (hlt : n < (s.pages q).property) :
    q + n ∉ l₁ ++ q :: l₂ := by
  intro hm
  obtain ⟨-, hs, hs₁⟩ := List.pairwise_append.mp h.sorted
  rcases List.mem_append.mp hm with hm | hm
  · have := hs₁ _ hm q (by simp)
    omega
  · rcases List.mem_cons.mp hm with he | hm
    · omega
    · have := (List.pairwise_cons.mp hs).1 _ hm
      omega

/-- The pointer stores that put `x` in the place of `q`. -/
theorem ring_relink {x : Nat} (h : FreeList s (l₁ ++ q :: l₂) out) (hq : ¬ s.Stale q) (hx : x ∉ l₁ ++ q :: l₂) :
    Seg (listNext (listAdd (listDel s.link (.page q)) (listPrev s.link (.page q)) (.page x))) .freeList
        ((l₁ ++ x :: l₂).map .page) .freeList ∧
      Back (listPrev (listAdd (listDel s.link (.page q)) (listPrev s.link (.page q)) (.page x))) .freeList
        ((l₁ ++ x :: l₂).map .page) := by
  have hsub : (l₁ ++ l₂).Sublist (l₁ ++ q :: l₂) := (List.Sublist.refl l₁).append (List.sublist_cons_self q l₂)
  have hdel := h.listDel hq
  have hnd : (Link.freeList :: (l₁ ++ l₂).map .page).Nodup := h.nodup_links.sublist (List.Sublist.cons_cons _ (hsub.map _))
  have hnew := FreeList.ring_rawListAdd _ _ hnd (fun hm => hx (hsub.subset hm)) hdel.1 hdel.2
  have hlink : listAdd (listDel s.link (.page q)) (listPrev s.link (.page q)) (.page x)
      = rawListAdd (listDel s.link (.page q)) (.page x)
          ((l₁.map Link.page).getLastD .freeList) ((l₂.map Link.page).headD .freeList) := by
    rw [listAdd, listAddAfter, h.prev_page hq, listNext_listDel, h.prev_page hq, h.next_page,
      Function.update_self]
  rw [hlink]
  exact hnew

/-- The list with a block cut where it is. -/
theorem FreeList.cutInPlace (h : FreeList s (l₁ ++ q :: l₂) out) (hn : 0 < n) (hlt : n < (s.pages q).property) :
    ∃ v : Pmm, FreeList v (l₁ ++ q :: (q + n) :: l₂) out ∧ v.npage = s.npage ∧ v.nrFree = s.nrFree ∧
      v.pages = (((s.setProperty (q + n) ((s.pages q).property - n)).setPageProperty (q + n)).setProperty q n).pages ∧
      (v.pages q).property = n := by
  have hqm : q ∈ l₁ ++ q :: l₂ := by simp
  have hend := h.end_le hqm
  have hsmall := h.small
  have hmod : ((s.pages q).property - n) % 2 ^ 32 = (s.pages q).property - n := Nat.mod_eq_of_lt (by omega)
  have hnmod : n % 2 ^ 32 = n := Nat.mod_eq_of_lt (by omega)
  have hcut := FreeList.ring_rawListAdd (l₁ ++ [q]) l₂ (m := s.link) (x := q + n)
    (by rw [List.append_assoc]; exact h.nodup_links) (by rw [List.append_assoc]; exact h.tail_fresh hn hlt)
    (by rw [List.append_assoc]; exact h.ring) (by rw [List.append_assoc]; exact h.back)
  rw [List.append_assoc] at hcut
  let m := rawListAdd s.link (.page (q + n)) (((l₁ ++ [q]).map Link.page).getLastD .freeList)
    ((l₂.map Link.page).headD .freeList)
  let v := ((s.setProperty (q + n) ((s.pages q).property - n)).setPageProperty (q + n)).setProperty q n
  refine ⟨v.setLink fun _ => m, ?_, rfl, rfl, rfl, ?_⟩
  · refine h.split hn hlt (fun i => ?_) (fun i => ?_) (fun i => ?_) rfl rfl hcut.1 hcut.2
    · simp only [v, Pmm.pages_setLink, Pmm.property_setProperty, Pmm.property_setPageProperty, hmod,
        hnmod]
      by_cases hi : i = q
      · subst hi; simp; omega
      · simp [hi]
    · simp [v]
    · simp [v]
  · show (v.pages q).property = n
    rw [Pmm.property_setProperty, if_pos rfl, hnmod]

/-- A larger block is cut: its tail goes back on the list, the first `n` pages are in use. The proof cuts
    the block where it is and then takes its first half. -/
theorem takeBlock_split (h : FreeList s (l₁ ++ q :: l₂) out) (hq : ¬ s.Stale q) (hn : 0 < n)
    (hlt : n < (s.pages q).property) :
    ∃ s', takeBlock n q s = .ok () s' ∧ FreeList s' (l₁ ++ (q + n) :: l₂) ((q, n) :: out) ∧
      SamePages s s' ∧ s'.nrFree + n = s.nrFree ∧ (s'.pages (q + n)).property = (s.pages q).property - n := by
  have hle : n ≤ s.nrFree := Nat.le_trans (Nat.le_of_lt hlt) h.prop_le
  have hmod : ((s.pages q).property - n) % 2 ^ 32 = (s.pages q).property - n := by
    have := h.end_le (q := q) (by simp)
    have := h.small
    exact Nat.mod_eq_of_lt (by omega)
  obtain ⟨v, hv, hnp, hnr, hpages, hprop⟩ := h.cutInPlace hn hlt
  -- the list the code builds: the block unlinked, the tail linked in its place
  obtain ⟨hring, hback⟩ := ring_relink h hq (h.tail_fresh hn hlt)
  let s' := (((((s.setLink (listDel · (.page q))).setProperty (q + n)
    ((s.pages q).property - n)).setPageProperty (q + n)).setLink
      (listAdd · (listPrev s.link (.page q)) (.page (q + n)))).subNrFree n).clearPageProperty q
  have htail : (s'.pages (q + n)).property = (s.pages q).property - n := by
    simp only [s', Pmm.property_clearPageProperty, Pmm.pages_subNrFree, Pmm.pages_setLink,
      Pmm.property_setPageProperty, Pmm.property_setProperty, if_true, hmod]
  refine ⟨s', ?_, ?_, ⟨rfl, fun i => by simp [s']⟩, h.subNrFree hle, htail⟩
  · simp only [takeBlock, Proc.get_bind, Proc.modify_bind]
    rw [Proc.bind_ok (splitBlock_cut (by simpa using hlt))]
    rfl
  · have hblock : v.block q = (q, n) := by
      rw [Pmm.block, hprop]
    rw [← hblock]
    refine hv.take (fun i hi => ?_) (fun i => ?_) (fun i => ?_) hnp.symm ?_ hring hback
    · simp [s', hpages, hi]
    · simp [s', hpages]
    · simp [s', hpages]
    · rw [hprop, hnr]
      exact h.subNrFree hle

/-- **Taking `n` pages** from a block whose `prev` pointer is right. What is left of it is on the list. -/
theorem takeBlock_spec (h : FreeList s (l₁ ++ q :: l₂) out) (hq : ¬ s.Stale q) (hn : 0 < n)
    (hle : n ≤ (s.pages q).property) :
    ∃ s' bs', takeBlock n q s = .ok () s' ∧ FreeList s' bs' ((q, n) :: out) ∧ SamePages s s' ∧
      s'.nrFree + n = s.nrFree ∧
      (n < (s.pages q).property → q + n ∈ bs' ∧ s'.block (q + n) = (q + n, (s.pages q).property - n)) := by
  rcases Nat.lt_or_eq_of_le hle with hlt | heq
  · obtain ⟨s', hrun, hinv, hsame, hnr, hprop⟩ := takeBlock_split h hq hn hlt
    exact ⟨s', _, hrun, hinv, hsame, hnr, fun _ => ⟨by simp, by rw [Pmm.block, hprop]⟩⟩
  · obtain ⟨s', hrun, hinv, hsame, hnr⟩ := takeBlock_whole h hq heq.symm
    exact ⟨s', _, hrun, hinv, hsame, hnr, fun hlt => absurd heq (Nat.ne_of_lt hlt)⟩

/-! ## Merging -/

theorem mergePrev_keep (h : ¬ (listPrev s.link (.page base) ≠ .freeList ∧
    le2page (listPrev s.link (.page base)) + (s.pages (le2page (listPrev s.link (.page base)))).property
      = base)) : mergePrev base s = .ok base s := by
  unfold mergePrev
  simp only [Proc.get_bind]
  rw [if_neg h]
  rfl

theorem mergePrev_join {p : Nat} (hp : listPrev s.link (.page base) = .page p)
    (hadj : p + (s.pages p).property = base) :
    mergePrev base s = .ok p (((s.setProperty p
      ((s.pages p).property + (s.pages base).property)).clearPageProperty base).setLink
        (listDel · (.page base))) := by
  unfold mergePrev
  simp only [Proc.get_bind, hp]
  rw [if_pos ⟨Link.noConfusion, hadj⟩]
  rfl

/-- Merging backwards: the freed block may join the one in front of it. The entry behind it points back
    at the head of the result. -/
theorem mergePrev_spec (h : FreeList s (l₁ ++ base :: l₂) out) (hfresh : s.Stale base → l₂ = [])
    (habove : ∀ q ∈ l₂.head?, listPrev s.link (.page q) = .page base) :
    ∃ s' p l, mergePrev base s = .ok p s' ∧ FreeList s' (l ++ p :: l₂) out ∧ SamePages s s' ∧
      s'.nrFree = s.nrFree ∧ ∀ q ∈ l₂.head?, listPrev s'.link (.page q) = .page p := by
  by_cases hst : s.Stale base
  · -- `prev` leads back to the block itself, which is not empty: nothing is merged
    have hpos := h.prop_pos (q := base) (by simp)
    have hst' : listPrev s.link (.page base) = .page base := hst
    refine ⟨s, base, l₁, mergePrev_keep ?_, h, SamePages.refl s, rfl, habove⟩
    rw [hst']
    rintro ⟨-, he⟩
    simp only [le2page] at he
    omega
  · have hprev := h.prev_page hst
    rcases List.eq_nil_or_concat l₁ with rfl | ⟨l, p, rfl⟩
    · refine ⟨s, base, [], mergePrev_keep (fun hc => hc.1 hprev), h, SamePages.refl s, rfl, habove⟩
    · rw [List.concat_eq_append] at h hprev
      have hp : listPrev s.link (.page base) = .page p := by rw [hprev]; simp
      by_cases hadj : p + (s.pages p).property = base
      · have hdel := h.listDel hst
        rw [List.append_assoc] at hdel
        have h' : FreeList s (l ++ p :: base :: l₂) out := by
          rw [List.append_assoc] at h; exact h
        refine ⟨_, p, l, mergePrev_join hp hadj, ?_, ⟨rfl, fun i => by simp⟩, rfl, ?_⟩
        · exact h'.merge hadj rfl rfl rfl hdel.1 hdel.2
        · intro q hq
          obtain ⟨l₃, rfl⟩ : ∃ l₃, l₂ = q :: l₃ := by
            cases l₂ with
            | nil => exact absurd hq (by simp)
            | cons z l₃ => obtain rfl : z = q := by simpa using hq
                           exact ⟨l₃, rfl⟩
          have hnext : listNext s.link (.page base) = .page q := h.next_page
          show listPrev (listDel s.link (.page base)) (.page q) = .page p
          rw [listPrev_listDel, hnext, hp, Function.update_self]
      · refine ⟨s, base, l ++ [p], mergePrev_keep ?_, h, SamePages.refl s, rfl, habove⟩
        rw [hp]
        exact fun hc => hadj hc.2

theorem mergeNext_keep (h : ¬ (listNext s.link (.page base) ≠ .freeList ∧
    base + (s.pages base).property = le2page (listNext s.link (.page base)))) :
    mergeNext base s = .ok () s := by
  unfold mergeNext
  simp only [Proc.get_bind]
  rw [if_neg h]
  rfl

theorem mergeNext_join {p : Nat} (hp : listNext s.link (.page base) = .page p)
    (hadj : base + (s.pages base).property = p) :
    mergeNext base s = .ok () (((s.setProperty base
      ((s.pages base).property + (s.pages p).property)).clearPageProperty p).setLink
        (listDel · (.page p))) := by
  unfold mergeNext
  simp only [Proc.get_bind, hp]
  rw [if_pos ⟨Link.noConfusion, hadj⟩]
  rfl

/-- Merging forwards, when the entry behind points back at the block. -/
theorem mergeNext_spec (h : FreeList s (l₁ ++ base :: l₂) out)
    (habove : ∀ q ∈ l₂.head?, listPrev s.link (.page q) = .page base) :
    ∃ s' bs', mergeNext base s = .ok () s' ∧ FreeList s' bs' out ∧ SamePages s s' ∧
      s'.nrFree = s.nrFree := by
  have hnext := h.next_page
  cases l₂ with
  | nil => exact ⟨s, _, mergeNext_keep (fun hc => hc.1 hnext), h, SamePages.refl s, rfl⟩
  | cons q l₂ =>
    have hq : listNext s.link (.page base) = .page q := hnext
    by_cases hadj : base + (s.pages base).property = q
    · have hpos := h.prop_pos (q := base) (by simp)
      have hprev := habove q (by simp)
      have hst : ¬ s.Stale q := by
        unfold Pmm.Stale
        rw [hprev]
        intro he
        have := Link.page.inj he
        omega
      have h' : FreeList s ((l₁ ++ [base]) ++ q :: l₂) out := by
        rw [List.append_assoc]; exact h
      have hdel := h'.listDel hst
      rw [List.append_assoc] at hdel
      exact ⟨_, _, mergeNext_join hq hadj, h.merge hadj rfl rfl rfl hdel.1 hdel.2,
        ⟨rfl, fun i => by simp⟩, rfl⟩
    · refine ⟨s, _, mergeNext_keep ?_, h, SamePages.refl s, rfl⟩
      rw [hq]
      exact fun hc => hadj hc.2

end Ucore
