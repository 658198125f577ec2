import Mathlib.Algebra.GroupWithZero.Nat
import Mathlib.Data.List.Nodup
import Mathlib.Data.List.Perm.Subperm
import Ucore.Mm.DefaultPmm

/-!
# `Mm.PmmInv` — the free list as a list of disjoint blocks, and how linking changes it

`FreeList s bs out`: the ring through `free_list` consists of the blocks headed by `bs`, in ascending
order and pairwise apart, and of nothing else; the blocks in `out` are in use, apart from each other and
from every free block. Only the `next` side is required to be intact: `prev` may be stale at the entry
itself (`Back`), which is what the insertion loop leaves behind at the end of the list.

`Apart` is the disjointness of two page ranges, `Stale` the state of an entry that points back at itself.
-/

namespace Ucore

/-- The page ranges `[a.1, a.1 + a.2)` and `[b.1, b.1 + b.2)` do not meet. -/
def Apart (a b : Nat × Nat) : Prop := a.1 + a.2 ≤ b.1 ∨ b.1 + b.2 ≤ a.1

instance (a b : Nat × Nat) : Decidable (Apart a b) := inferInstanceAs (Decidable (_ ∨ _))

theorem Apart.symm {a b : Nat × Nat} (h : Apart a b) : Apart b a := Or.symm h

/-- Ranges that are pairwise apart and end below `N` have at most `N` members together. -/
theorem sum_le_of_apart {l : List (Nat × Nat)} {N : Nat} (hap : l.Pairwise Apart)
    (hle : ∀ b ∈ l, b.1 + b.2 ≤ N) : (l.map (·.2)).sum ≤ N := by
  have hnd : (l.flatMap fun b => List.range' b.1 b.2).Nodup := by
    refine List.nodup_flatMap.mpr ⟨fun b _ => List.nodup_range', hap.imp fun {a b} hab => ?_⟩
    intro x hx hy
    simp only [List.mem_range'_1] at hx hy
    simp only [Apart] at hab
    omega
  have hsub : (l.flatMap fun b => List.range' b.1 b.2) ⊆ List.range N := by
    intro x hx
    obtain ⟨b, hb, hx⟩ := List.mem_flatMap.mp hx
    have := hle b hb
    simp only [List.mem_range'_1, List.mem_range] at hx ⊢
    omega
  simpa [List.length_flatMap] using (hnd.subperm hsub).length_le

/-- The range of the free block headed by `q`. -/
def Pmm.block (s : Pmm) (q : Nat) : Nat × Nat := (q, (s.pages q).property)

/-- The entry's `prev` pointer points back at the entry, not at its predecessor. -/
def Pmm.Stale (s : Pmm) (q : Nat) : Prop := listPrev s.link (.page q) = .page q

/-- The pages of a range exist and belong to the allocator. -/
def Pmm.Usable (s : Pmm) (b : Nat × Nat) : Prop :=
  0 < b.2 ∧ ∀ i, b.1 ≤ i → i < b.1 + b.2 → i < s.npage ∧ (s.pages i).pgReserved = false

theorem Pmm.Usable.congr {s s' : Pmm} {b : Nat × Nat} (h : s.Usable b) (hnp : s'.npage = s.npage)
    (hres : ∀ i, (s'.pages i).pgReserved = (s.pages i).pgReserved) : s'.Usable b := by
  refine ⟨h.1, fun i hi hi' => ?_⟩
  rw [hnp, hres]
  exact h.2 i hi hi'

/-- Where the lengths stay, the blocks stay apart. -/
theorem sorted_congr {s s' : Pmm} {l : List Nat} (h : l.Pairwise fun a b => a + (s.pages a).property ≤ b)
    (hold : ∀ q ∈ l, (s'.pages q).property = (s.pages q).property) : l.Pairwise fun a b => a + (s'.pages a).property ≤ b := by
  refine h.imp_of_mem fun {a b} ha _ hab => ?_
  rw [hold a ha]
  exact hab

/-- A block is put between blocks that end before it and blocks that begin behind it. -/
theorem sorted_insert {s : Pmm} {l₁ l₂ : List Nat} {x : Nat} (h : (l₁ ++ l₂).Pairwise fun a b => a + (s.pages a).property ≤ b)
    (h₁ : ∀ a ∈ l₁, a + (s.pages a).property ≤ x) (h₂ : ∀ b ∈ l₂, x + (s.pages x).property ≤ b) :
    (l₁ ++ x :: l₂).Pairwise fun a b => a + (s.pages a).property ≤ b := by
  obtain ⟨hs₁, hs₂, hs₁₂⟩ := List.pairwise_append.mp h
  refine List.pairwise_append.mpr ⟨hs₁, List.pairwise_cons.mpr ⟨h₂, hs₂⟩, fun a ha b hb => ?_⟩
  rcases List.mem_cons.mp hb with rfl | hb
  · exact h₁ a ha
  · exact hs₁₂ a ha b hb

/-- **The free-list invariant**, for the listed block heads `bs` and the blocks in use `out`. -/
structure FreeList (s : Pmm) (bs : List Nat) (out : List (Nat × Nat)) : Prop where
  ring : Seg (listNext s.link) .freeList (bs.map .page) .freeList
  back : Back (listPrev s.link) .freeList (bs.map .page)
  sorted : bs.Pairwise fun a b => a + (s.pages a).property ≤ b
  usable : ∀ q ∈ bs, s.Usable (s.block q)
  flag : ∀ i, i < s.npage → (s.pages i).pgReserved = false →
    ((s.pages i).pgProperty = true ↔ i ∈ bs)
  outUsable : ∀ b ∈ out, s.Usable b
  outApart : out.Pairwise Apart
  freeApart : ∀ b ∈ out, ∀ q ∈ bs, Apart (s.block q) b
  count : s.nrFree = (bs.map fun q => (s.pages q).property).sum
  small : s.npage < 2 ^ 32

/-- The heads of listed blocks that a walk from `free_list` meets before `q`. -/
def ListedBefore (s : Pmm) (l : List Nat) (q : Nat) : Prop :=
  Seg (listNext s.link) .freeList (l.map .page) (.page q)

namespace FreeList

variable {s : Pmm} {bs : List Nat} {out : List (Nat × Nat)}

theorem prop_pos (h : FreeList s bs out) {q : Nat} (hq : q ∈ bs) : 0 < (s.pages q).property :=
  (h.usable q hq).1

theorem lt_npage (h : FreeList s bs out) {q : Nat} (hq : q ∈ bs) : q < s.npage :=
  ((h.usable q hq).2 q (Nat.le_refl _) (Nat.lt_add_of_pos_right (h.prop_pos hq))).1

/-- A listed block ends inside the page array. -/
theorem end_le (h : FreeList s bs out) {q : Nat} (hq : q ∈ bs) :
    q + (s.pages q).property ≤ s.npage := by
  have hpos := h.prop_pos hq
  have hlast := ((h.usable q hq).2 (q + (s.pages q).property - 1) (by simp [Pmm.block]; omega)
    (by simp [Pmm.block]; omega)).1
  omega

theorem ascending (h : FreeList s bs out) : bs.Pairwise (· < ·) := by
  refine List.Pairwise.imp_of_mem (fun {a b} ha _ hab => ?_) h.sorted
  have := h.prop_pos ha
  omega

theorem nodup (h : FreeList s bs out) : bs.Nodup :=
  h.ascending.imp (fun hab => Nat.ne_of_lt hab)

theorem length_le (h : FreeList s bs out) : bs.length ≤ s.npage := by
  have hsub : bs ⊆ List.range s.npage := fun q hq => List.mem_range.mpr (h.lt_npage hq)
  simpa using (h.nodup.subperm hsub).length_le

theorem nodup_links (h : FreeList s bs out) : (Link.freeList :: bs.map .page).Nodup := by
  refine List.nodup_cons.mpr ⟨by simp, h.nodup.map (fun a b hab => ?_)⟩
  exact Link.page.inj hab

/-- A block in use is not the head of a free one. -/
theorem out_not_mem (h : FreeList s bs out) {b : Nat × Nat} (hb : b ∈ out) : b.1 ∉ bs := by
  intro hq
  have hap := h.freeApart b hb b.1 hq
  have h1 := h.prop_pos hq
  have h2 := (h.outUsable b hb).1
  simp only [Apart, Pmm.block] at hap
  omega

/-- The pages of a block in use are neither reserved nor heads. -/
theorem plain (h : FreeList s bs out) {b : Nat × Nat} (hb : b ∈ out) (i : Nat) (h1 : b.1 ≤ i) (h2 : i < b.1 + b.2) :
    (s.pages i).pgReserved = false ∧ (s.pages i).pgProperty = false := by
  obtain ⟨hi, hr⟩ := (h.outUsable b hb).2 i h1 h2
  refine ⟨hr, ?_⟩
  -- a block head among the pages in use would not be apart from them
  rw [Bool.eq_false_iff, Ne, h.flag i hi hr]
  intro hm
  have hap := h.freeApart b hb i hm
  have hpos := h.prop_pos hm
  simp only [Apart, Pmm.block] at hap
  omega

theorem perm (h : FreeList s bs out) {out' : List (Nat × Nat)} (hp : out.Perm out') :
    FreeList s bs out' where
  ring := h.ring
  back := h.back
  sorted := h.sorted
  usable := h.usable
  flag := h.flag
  outUsable := fun b hb => h.outUsable b (hp.mem_iff.mpr hb)
  outApart := (hp.pairwise_iff Apart.symm).mp h.outApart
  freeApart := fun b hb => h.freeApart b (hp.mem_iff.mpr hb)
  count := h.count
  small := h.small

/-- The blocks, free and in use, fit side by side into the page array. -/
theorem room (h : FreeList s bs out) : s.nrFree + (out.map (·.2)).sum ≤ s.npage := by
  have hap : (bs.map s.block ++ out).Pairwise Apart := by
    refine List.pairwise_append.mpr ⟨?_, h.outApart, ?_⟩
    · exact List.pairwise_map.mpr (h.sorted.imp fun hab => Or.inl hab)
    · intro a ha b hb
      obtain ⟨q, hq, rfl⟩ := List.mem_map.mp ha
      exact h.freeApart b hb q hq
  have hle : ∀ b ∈ bs.map s.block ++ out, b.1 + b.2 ≤ s.npage := by
    intro b hb
    have hus : s.Usable b := by
      rcases List.mem_append.mp hb with hb | hb
      · obtain ⟨q, hq, rfl⟩ := List.mem_map.mp hb
        exact h.usable q hq
      · exact h.outUsable b hb
    have := (hus.2 (b.1 + b.2 - 1) (by have := hus.1; omega) (by have := hus.1; omega)).1
    omega
  have := sum_le_of_apart hap hle
  rw [List.map_append, List.sum_append, List.map_map] at this
  rw [h.count]
  exact this

/-- Two states with the same links and the same flags and properties share the invariant. -/
theorem congr (h : FreeList s bs out) {s' : Pmm} (hn : s'.npage = s.npage) (hl : s'.link = s.link)
    (hf : s'.nrFree = s.nrFree) (hr : ∀ i, (s'.pages i).pgReserved = (s.pages i).pgReserved)
    (hg : ∀ i, (s'.pages i).pgProperty = (s.pages i).pgProperty)
    (hp : ∀ i, (s'.pages i).property = (s.pages i).property) : FreeList s' bs out := by
  have hus : ∀ b, s.Usable b → s'.Usable b := fun _ hb => hb.congr hn hr
  have hblk : ∀ q, s'.block q = s.block q := fun q => by simp only [Pmm.block, hp]
  refine ⟨?_, ?_, ?_, ?_, ?_, ?_, h.outApart, ?_, ?_, ?_⟩
  · rw [hl]; exact h.ring
  · rw [hl]; exact h.back
  · exact sorted_congr h.sorted fun q _ => hp q
  · intro q hq; rw [hblk]; exact hus _ (h.usable q hq)
  · intro i hi hri; rw [hg]; exact h.flag i (hn ▸ hi) (hr i ▸ hri)
  · exact fun b hb => hus b (h.outUsable b hb)
  · intro b hb q hq; rw [hblk]; exact h.freeApart b hb q hq
  · rw [hf, h.count]; simp only [hp]
  · rw [hn]; exact h.small

end FreeList

/-! ## Changing the list -/

section Change

variable {s s' : Pmm} {l₁ l₂ : List Nat} {out : List (Nat × Nat)} {base n : Nat}

/-- **Linking a block.** A block in use becomes the free block between `l₁` and `l₂`, given what the
    pointer stores did to the two sides of the ring. -/
theorem FreeList.link (h : FreeList s (l₁ ++ l₂) ((base, n) :: out))
    (h₁ : ∀ q ∈ l₁, q < base) (h₂ : ∀ q ∈ l₂, base < q) (hcount : s.nrFree + n < 2 ^ 32)
    (hpages : s'.pages = ((s.setProperty base n).setPageProperty base).pages)
    (hnp : s'.npage = s.npage) (hnr : s'.nrFree = (s.nrFree + n) % 2 ^ 32)
    (hring : Seg (listNext s'.link) .freeList ((l₁ ++ base :: l₂).map .page) .freeList)
    (hback : Back (listPrev s'.link) .freeList ((l₁ ++ base :: l₂).map .page)) :
    FreeList s' (l₁ ++ base :: l₂) out := by
  have hb : (base, n) ∈ (base, n) :: out := by simp
  have hnot : base ∉ l₁ ++ l₂ := h.out_not_mem hb
  have hus := h.outUsable _ hb
  have hbase : base < s.npage := (hus.2 base (Nat.le_refl _) (Nat.lt_add_of_pos_right hus.1)).1
  have hn : n % 2 ^ 32 = n := Nat.mod_eq_of_lt (by omega)
  have hprop : ∀ q, (s'.pages q).property = if q = base then n else (s.pages q).property := by
    intro q; simp only [hpages, Pmm.property_setPageProperty, Pmm.property_setProperty, hn]
  have hres : ∀ q, (s'.pages q).pgReserved = (s.pages q).pgReserved := by
    intro q; simp only [hpages, Pmm.pgReserved_setPageProperty, Pmm.pgReserved_setProperty]
  have hflag : ∀ q, (s'.pages q).pgProperty = true ↔ q = base ∨ (s.pages q).pgProperty = true := by
    intro q; simp [hpages]
  have hold : ∀ q ∈ l₁ ++ l₂, (s'.pages q).property = (s.pages q).property := by
    intro q hq
    rw [hprop, if_neg (fun he : q = base => hnot (he ▸ hq))]
  have huse : ∀ b, s.Usable b → s'.Usable b := fun _ hb => hb.congr hnp hres
  have hmem : ∀ q, q ∈ l₁ ++ base :: l₂ ↔ q = base ∨ q ∈ l₁ ++ l₂ := by
    intro q; simp only [List.mem_append, List.mem_cons]; tauto
  refine ⟨hring, hback, ?_, ?_, ?_, ?_, ?_, ?_, ?_, ?_⟩
  · -- the new block lies between its neighbours
    have hpos := hus.1
    refine sorted_insert (sorted_congr h.sorted hold) (fun a ha => ?_) fun q hq => ?_
    · have hap := h.freeApart _ hb a (List.mem_append_left _ ha)
      have hlt := h₁ a ha
      rw [hold a (List.mem_append_left _ ha)]
      simp only [Apart, Pmm.block] at hap
      omega
    · have hap := h.freeApart _ hb q (List.mem_append_right _ hq)
      have hqpos := h.prop_pos (List.mem_append_right l₁ hq)
      have hlt := h₂ q hq
      rw [hprop, if_pos rfl]
      simp only [Apart, Pmm.block] at hap
      omega
  · intro q hq
    rcases (hmem q).mp hq with rfl | hq
    · simp only [Pmm.block, hprop, if_pos]; exact huse _ hus
    · simp only [Pmm.block, hold q hq]; exact huse _ (h.usable q hq)
  · intro i hi hri
    rw [hflag, h.flag i (hnp ▸ hi) (hres i ▸ hri), hmem]
  · exact fun b hbm => huse b (h.outUsable b (List.mem_cons_of_mem _ hbm))
  · exact (List.pairwise_cons.mp h.outApart).2
  · intro b hbm q hq
    rcases (hmem q).mp hq with rfl | hq
    · simp only [Pmm.block, hprop, if_pos]
      exact (List.pairwise_cons.mp h.outApart).1 b hbm
    · simp only [Pmm.block, hold q hq]
      exact h.freeApart b (List.mem_cons_of_mem _ hbm) q hq
  · have hsum : ∀ l : List Nat, (∀ q ∈ l, q ∈ l₁ ++ l₂) →
        (l.map fun q => (s'.pages q).property) = l.map fun q => (s.pages q).property :=
      fun l hl => List.map_congr_left (fun q hq => hold q (hl q hq))
    have hc := h.count
    rw [List.map_append, List.sum_append] at hc
    rw [hnr, Nat.mod_eq_of_lt hcount, List.map_append, List.map_cons, List.sum_append, List.sum_cons,
      hsum l₁ (fun q hq => List.mem_append_left _ hq),
      hsum l₂ (fun q hq => List.mem_append_right _ hq), hprop, if_pos rfl]
    omega
  · rw [hnp]; exact h.small

theorem nodup_pair {p q : Nat} (h : (l₁ ++ p :: q :: l₂).Nodup) : p ∉ l₁ ∧ p ∉ l₂ ∧ q ∉ l₁ ∧ q ∉ l₂ := by
  obtain ⟨-, hnd, hdis⟩ := List.nodup_append.mp h
  obtain ⟨hp, hnd'⟩ := List.nodup_cons.mp hnd
  refine ⟨fun hm => hdis p hm p List.mem_cons_self rfl, fun hm => hp (List.mem_cons_of_mem q hm), fun hm => ?_,
    (List.nodup_cons.mp hnd').1⟩
  exact hdis q hm q (List.mem_cons_of_mem p List.mem_cons_self) rfl

/-- The pages of the joined block are those of the two. -/
theorem usable_merge {p q : Nat} (hp : s.Usable (s.block p)) (hq : s.Usable (s.block q)) (hadj : p + (s.pages p).property = q) :
    s.Usable (p, (s.pages p).property + (s.pages q).property) := by
  have hpos : 0 < (s.pages p).property := hp.1
  refine ⟨Nat.add_pos_left hpos _, fun j hj hj' => ?_⟩
  have hend : j < p + ((s.pages p).property + (s.pages q).property) := hj'
  by_cases hjq : j < p + (s.pages p).property
  · exact hp.2 j hj hjq
  · refine hq.2 j ?_ ?_
    · show q ≤ j
      omega
    · show j < q + (s.pages q).property
      omega

/-- **Merging two neighbours.** The block at `q` joins the block at `p` that ends where `q` begins. -/
theorem FreeList.merge {p q : Nat} (h : FreeList s (l₁ ++ p :: q :: l₂) out)
    (hadj : p + (s.pages p).property = q)
    (hpages : s'.pages
      = ((s.setProperty p ((s.pages p).property + (s.pages q).property)).clearPageProperty q).pages)
    (hnp : s'.npage = s.npage) (hnr : s'.nrFree = s.nrFree)
    (hring : Seg (listNext s'.link) .freeList ((l₁ ++ p :: l₂).map .page) .freeList)
    (hback : Back (listPrev s'.link) .freeList ((l₁ ++ p :: l₂).map .page)) :
    FreeList s' (l₁ ++ p :: l₂) out := by
  have hpm : p ∈ l₁ ++ p :: q :: l₂ := by simp
  have hqm : q ∈ l₁ ++ p :: q :: l₂ := by simp
  have hppos := h.prop_pos hpm
  have hqpos := h.prop_pos hqm
  have hqend := h.end_le hqm
  have hsmall := h.small
  have hpq : p ≠ q := by omega
  have hmod : ((s.pages p).property + (s.pages q).property) % 2 ^ 32
      = (s.pages p).property + (s.pages q).property := Nat.mod_eq_of_lt (by omega)
  obtain ⟨hp₁, hp₂, hq₁, hq₂⟩ := nodup_pair h.nodup
  have hprop : ∀ i, (s'.pages i).property
      = if i = p then (s.pages p).property + (s.pages q).property else (s.pages i).property := by
    intro i; simp only [hpages, Pmm.property_clearPageProperty, Pmm.property_setProperty, hmod]
  have hres : ∀ i, (s'.pages i).pgReserved = (s.pages i).pgReserved := by
    intro i; simp only [hpages, Pmm.pgReserved_clearPageProperty, Pmm.pgReserved_setProperty]
  have hflag : ∀ i, (s'.pages i).pgProperty = true ↔ i ≠ q ∧ (s.pages i).pgProperty = true := by
    intro i; simp [hpages]
  have hold : ∀ i, i ≠ p → (s'.pages i).property = (s.pages i).property := fun i hi => by
    rw [hprop, if_neg hi]
  have huse : ∀ b, s.Usable b → s'.Usable b := fun _ hb => hb.congr hnp hres
  refine ⟨hring, hback, ?_, ?_, ?_, ?_, h.outApart, ?_, ?_, ?_⟩
  · obtain ⟨hs₁, hs₂, hs₁₂⟩ := List.pairwise_append.mp h.sorted
    obtain ⟨hsq, hs₃⟩ := List.pairwise_cons.mp (List.pairwise_cons.mp hs₂).2
    have hrest : (l₁ ++ l₂).Sublist (l₁ ++ p :: q :: l₂) :=
      (List.Sublist.refl l₁).append ((List.sublist_cons_self q l₂).trans (List.sublist_cons_self p _))
    have hsame : ∀ a ∈ l₁ ++ l₂, (s'.pages a).property = (s.pages a).property := by
      intro a ha
      refine hold a ?_
      rintro rfl
      exact (List.mem_append.mp ha).elim hp₁ hp₂
    refine sorted_insert (sorted_congr (h.sorted.sublist hrest) hsame) (fun a ha => ?_) fun b hb => ?_
    · rw [hsame a (List.mem_append_left _ ha)]
      exact hs₁₂ a ha p (by simp)
    · have hend := hsq b hb
      rw [hprop, if_pos rfl]
      omega
  · intro i hi
    by_cases hip : i = p
    · subst hip
      simp only [Pmm.block, hprop, if_pos]
      exact huse _ (usable_merge (h.usable i hpm) (h.usable q hqm) hadj)
    · have him : i ∈ l₁ ++ p :: q :: l₂ := by
        simp only [List.mem_append, List.mem_cons] at hi ⊢; tauto
      simp only [Pmm.block, hold i hip]
      exact huse _ (h.usable i him)
  · intro i hi hri
    rw [hflag, h.flag i (hnp ▸ hi) (hres i ▸ hri)]
    simp only [List.mem_append, List.mem_cons]
    constructor
    · rintro ⟨hiq, h'⟩; tauto
    · intro h'
      refine ⟨?_, by tauto⟩
      rintro rfl
      rcases h' with h' | h' | h'
      · exact hq₁ h'
      · exact hpq h'.symm
      · exact hq₂ h'
  · exact fun b hb => huse b (h.outUsable b hb)
  · intro b hb i hi
    by_cases hip : i = p
    · subst hip
      have h1 := h.freeApart b hb i hpm
      have h2 := h.freeApart b hb q hqm
      have h3 := (h.outUsable b hb).1
      simp only [Apart, Pmm.block, hprop, if_pos] at h1 h2 ⊢
      omega
    · have him : i ∈ l₁ ++ p :: q :: l₂ := by
        simp only [List.mem_append, List.mem_cons] at hi ⊢; tauto
      simp only [Pmm.block, hold i hip]
      exact h.freeApart b hb i him
  · have hsum : ∀ l : List Nat, p ∉ l →
        (l.map fun q => (s'.pages q).property) = l.map fun q => (s.pages q).property :=
      fun l hl => List.map_congr_left (fun i hi => hold i (fun he => hl (he ▸ hi)))
    have hc := h.count
    simp only [List.map_append, List.map_cons, List.sum_append, List.sum_cons] at hc ⊢
    rw [hnr, hsum l₁ hp₁, hsum l₂ hp₂, hprop, if_pos rfl]
    omega
  · rw [hnp]; exact h.small

/-- **Taking a whole block** off the list puts it in use. -/
theorem FreeList.take {q : Nat} (h : FreeList s (l₁ ++ q :: l₂) out)
    (hprop : ∀ i, i ≠ q → (s'.pages i).property = (s.pages i).property)
    (hres : ∀ i, (s'.pages i).pgReserved = (s.pages i).pgReserved)
    (hflag : ∀ i, (s'.pages i).pgProperty = true ↔ i ≠ q ∧ (s.pages i).pgProperty = true)
    (hnp : s'.npage = s.npage) (hnr : s'.nrFree + (s.pages q).property = s.nrFree)
    (hring : Seg (listNext s'.link) .freeList ((l₁ ++ l₂).map .page) .freeList)
    (hback : Back (listPrev s'.link) .freeList ((l₁ ++ l₂).map .page)) :
    FreeList s' (l₁ ++ l₂) (s.block q :: out) := by
  have hqm : q ∈ l₁ ++ q :: l₂ := by simp
  have hsub : (l₁ ++ l₂).Sublist (l₁ ++ q :: l₂) :=
    List.Sublist.append (List.Sublist.refl _) (List.sublist_cons_self _ _)
  have hnd := List.nodup_append.mp h.nodup
  have hq₂ : q ∉ l₁ ++ l₂ := by
    intro hm
    rcases List.mem_append.mp hm with hm | hm
    · exact hnd.2.2 q hm q (by simp) rfl
    · exact (List.nodup_cons.mp hnd.2.1).1 hm
  have hold : ∀ i ∈ l₁ ++ l₂, (s'.pages i).property = (s.pages i).property :=
    fun i hi => hprop i (fun he => hq₂ (he ▸ hi))
  have hblk : ∀ i ∈ l₁ ++ l₂, s'.block i = s.block i := fun i hi => by
    simp only [Pmm.block, hold i hi]
  have huse : ∀ b, s.Usable b → s'.Usable b := fun _ hb => hb.congr hnp hres
  have hapart : ∀ i ∈ l₁ ++ l₂, Apart (s.block i) (s.block q) := by
    intro i hi
    rcases List.mem_append.mp hi with hi | hi
    · exact Or.inl ((List.pairwise_append.mp h.sorted).2.2 i hi q (by simp))
    · exact Or.inr ((List.pairwise_cons.mp (List.pairwise_append.mp h.sorted).2.1).1 i hi)
  refine ⟨hring, hback, ?_, ?_, ?_, ?_, ?_, ?_, ?_, ?_⟩
  · exact sorted_congr (h.sorted.sublist hsub) hold
  · intro i hi; rw [hblk i hi]; exact huse _ (h.usable i (hsub.subset hi))
  · intro i hi hri
    rw [hflag, h.flag i (hnp ▸ hi) (hres i ▸ hri)]
    simp only [List.mem_append, List.mem_cons] at hq₂ ⊢
    constructor
    · rintro ⟨hiq, h'⟩; tauto
    · intro h'
      exact ⟨fun he => hq₂ (he ▸ h'), by tauto⟩
  · intro b hb
    rcases List.mem_cons.mp hb with rfl | hb
    · exact huse _ (h.usable q hqm)
    · exact huse b (h.outUsable b hb)
  · exact List.pairwise_cons.mpr ⟨fun b hb => h.freeApart b hb q hqm, h.outApart⟩
  · intro b hb i hi
    rw [hblk i hi]
    rcases List.mem_cons.mp hb with rfl | hb
    · exact hapart i hi
    · exact h.freeApart b hb i (hsub.subset hi)
  · have hsum : ((l₁ ++ l₂).map fun q => (s'.pages q).property)
        = (l₁ ++ l₂).map fun q => (s.pages q).property := List.map_congr_left hold
    have hc := h.count
    rw [hsum]
    simp only [List.map_append, List.map_cons, List.sum_append, List.sum_cons] at hc ⊢
    omega
  · rw [hnp]; exact h.small

/-- **Splitting a block**: its first `n` pages stay a free block, the rest becomes the next one. -/
theorem FreeList.split {q : Nat} (h : FreeList s (l₁ ++ q :: l₂) out) (hn : 0 < n)
    (hlt : n < (s.pages q).property)
    (hprop : ∀ i, (s'.pages i).property = if i = q + n then (s.pages q).property - n
      else if i = q then n else (s.pages i).property)
    (hres : ∀ i, (s'.pages i).pgReserved = (s.pages i).pgReserved)
    (hflag : ∀ i, (s'.pages i).pgProperty = true ↔ i = q + n ∨ (s.pages i).pgProperty = true)
    (hnp : s'.npage = s.npage) (hnr : s'.nrFree = s.nrFree)
    (hring : Seg (listNext s'.link) .freeList ((l₁ ++ q :: (q + n) :: l₂).map .page) .freeList)
    (hback : Back (listPrev s'.link) .freeList ((l₁ ++ q :: (q + n) :: l₂).map .page)) :
    FreeList s' (l₁ ++ q :: (q + n) :: l₂) out := by
  have hqm : q ∈ l₁ ++ q :: l₂ := by simp
  obtain ⟨hs₁, hs₂, hs₁₂⟩ := List.pairwise_append.mp h.sorted
  obtain ⟨hsq, hs₃⟩ := List.pairwise_cons.mp hs₂
  have hpn : ∀ i ∈ l₁ ++ l₂, i ≠ q + n ∧ i ≠ q := by
    intro i hi
    rcases List.mem_append.mp hi with hi | hi
    · have h1 := hs₁₂ i hi q (by simp)
      have h2 := h.prop_pos (List.mem_append_left (q :: l₂) hi)
      omega
    · have h1 := hsq i hi
      omega
  have hold : ∀ i ∈ l₁ ++ l₂, (s'.pages i).property = (s.pages i).property := fun i hi => by
    rw [hprop, if_neg (hpn i hi).1, if_neg (hpn i hi).2]
  have hnew : (s'.pages (q + n)).property = (s.pages q).property - n := by rw [hprop, if_pos rfl]
  have hq' : (s'.pages q).property = n := by rw [hprop, if_neg (by omega), if_pos rfl]
  have huse : ∀ b, s.Usable b → s'.Usable b := fun _ hb => hb.congr hnp hres
  have hpart : ∀ b : Nat × Nat, 0 < b.2 → q ≤ b.1 → b.1 + b.2 ≤ q + (s.pages q).property →
      s'.Usable b := by
    intro b hb h1 h2
    refine ⟨hb, fun i hi hi' => ?_⟩
    rw [hnp, hres]
    exact (h.usable q hqm).2 i (by simp only [Pmm.block]; omega) (by simp only [Pmm.block]; omega)
  have hmem : ∀ i, i ∈ l₁ ++ q :: (q + n) :: l₂ ↔ i = q ∨ i = q + n ∨ i ∈ l₁ ++ l₂ := by
    intro i; simp only [List.mem_append, List.mem_cons]; tauto
  refine ⟨hring, hback, ?_, ?_, ?_, ?_, h.outApart, ?_, ?_, ?_⟩
  · have hrest : (l₁ ++ l₂).Sublist (l₁ ++ q :: l₂) := (List.Sublist.refl l₁).append (List.sublist_cons_self q l₂)
    have hl₁ : ∀ a ∈ l₁, a + (s'.pages a).property ≤ q := by
      intro a ha
      rw [hold a (List.mem_append_left _ ha)]
      exact hs₁₂ a ha q (by simp)
    -- the rest of the block goes in first, and its head before it
    refine sorted_insert (sorted_insert (sorted_congr (h.sorted.sublist hrest) hold) (fun a ha => ?_) fun b hb => ?_) hl₁
      fun b hb => ?_
    · have hend := hl₁ a ha
      omega
    · have hend := hsq b hb
      rw [hnew]
      omega
    · rw [hq']
      rcases List.mem_cons.mp hb with rfl | hb
      · exact Nat.le_refl _
      · have hend := hsq b hb
        omega
  · intro i hi
    rcases (hmem i).mp hi with rfl | rfl | hi
    · exact hpart _ (by simp only [Pmm.block, hq']; omega) (by simp only [Pmm.block]; omega)
        (by simp only [Pmm.block, hq']; omega)
    · exact hpart _ (by simp only [Pmm.block, hnew]; omega) (by simp only [Pmm.block]; omega)
        (by simp only [Pmm.block, hnew]; omega)
    · simp only [Pmm.block, hold i hi]
      exact huse _ (h.usable i (by simp only [List.mem_append, List.mem_cons] at hi ⊢; tauto))
  · intro i hi hri
    rw [hflag, h.flag i (hnp ▸ hi) (hres i ▸ hri), hmem]
    simp only [List.mem_append, List.mem_cons]; tauto
  · exact fun b hb => huse b (h.outUsable b hb)
  · intro b hb i hi
    have hap := h.freeApart b hb q hqm
    rcases (hmem i).mp hi with rfl | rfl | hi
    · simp only [Apart, Pmm.block, hq'] at hap ⊢; omega
    · simp only [Apart, Pmm.block, hnew] at hap ⊢; omega
    · simp only [Pmm.block, hold i hi]
      exact h.freeApart b hb i (by simp only [List.mem_append, List.mem_cons] at hi ⊢; tauto)
  · have hsum : ∀ l : List Nat, (∀ q ∈ l, q ∈ l₁ ++ l₂) →
        (l.map fun q => (s'.pages q).property) = l.map fun q => (s.pages q).property :=
      fun l hl => List.map_congr_left (fun q hq => hold q (hl q hq))
    have hc := h.count
    simp only [List.map_append, List.map_cons, List.sum_append, List.sum_cons] at hc ⊢
    rw [hnr, hsum l₁ (fun q hq => List.mem_append_left _ hq),
      hsum l₂ (fun q hq => List.mem_append_right _ hq), hnew, hq']
    omega
  · rw [hnp]; exact h.small

end Change

end Ucore
