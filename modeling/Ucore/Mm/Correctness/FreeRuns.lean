import Ucore.Lib.Runs
import Ucore.Libs.ListRing
import Ucore.Mm.PmmSpec

/-!
# `Mm.Correctness.FreeRuns` — what `default_free_pages` makes of a well-formed list

`Canonical s bs out`: the free list is intact on both sides and ascending, and no two of its blocks touch, so that they are
the maximal runs of the free pages. `default_free_pages` keeps this exactly when the block does not go to the end of a list
that is not empty (`Pmm.Inside`): there the insertion loop runs on, and links the block behind itself.
-/

namespace Ucore

variable {s s' : Pmm} {bs l₁ l₂ : List Nat} {out : List (Nat × Nat)} {base n p q : Nat}

/-- A well-formed free list, with the heads `bs`; the blocks `out` are apart from it and from each other. -/
structure Canonical (s : Pmm) (bs : List Nat) (out : List (Nat × Nat)) : Prop where
  list : FreeList s bs out
  ring : ListRing s.link .freeList (bs.map .page)
  gapped : Gapped (bs.map s.block)

/-- `free_list` is empty, or `base` is below its last block. -/
def Pmm.Inside (s : Pmm) (base : Nat) : Prop :=
  listEmpty s.link .freeList = true ∨ base < le2page (listPrev s.link .freeList)

/-- `default_free_pages` returns, and leaves the maximal runs of the free pages and those of the block. -/
def FreesRuns (s : Pmm) (bs : List Nat) (out : List (Nat × Nat)) (base n : Nat) : Prop :=
  ∃ s' bs', defaultFreePages base n s = .ok () s' ∧ Canonical s' bs' out ∧
    ∀ b, b ∈ bs'.map s'.block ↔ MaximalRun (cover (bs.map s.block) ∪ range (base, n)) b

/-! ## Linking -/

/-- An intact list that a block has just joined: no two of the other blocks touch. -/
structure BlockJoined (s : Pmm) (l₁ : List Nat) (base : Nat) (l₂ : List Nat) (out : List (Nat × Nat)) : Prop where
  list : FreeList s (l₁ ++ base :: l₂) out
  ring : ListRing s.link .freeList ((l₁ ++ base :: l₂).map .page)
  gapped : Gapped ((l₁ ++ l₂).map s.block)

theorem Canonical.inside_iff (h : Canonical s bs out) : s.Inside base ↔ bs = [] ∨ ∃ q ∈ bs, base < q := by
  rw [Pmm.Inside, h.ring.listEmpty_iff, h.ring.prev_head, List.map_eq_nil_iff]
  rcases List.eq_nil_or_concat bs with rfl | ⟨l, z, rfl⟩
  · simp
  · rw [List.concat_eq_append]
    have hz : ((l ++ [z]).map Link.page).getLastD .freeList = .page z := by simp
    rw [hz]
    refine or_congr Iff.rfl ⟨fun hlt => ⟨z, by simp, hlt⟩, ?_⟩
    rintro ⟨q, hq, hlt⟩
    -- the last block is the highest one
    have hasc := h.list.ascending
    rw [List.concat_eq_append] at hasc
    rcases List.mem_append.mp hq with hq | hq
    · have := (List.pairwise_append.mp hasc).2.2 q hq z (by simp)
      exact Nat.lt_trans hlt this
    · rwa [List.mem_singleton.mp hq] at hlt

@[simp] theorem Pmm.link_asFree : (s.asFree base n).link = s.link := rfl

/-- The blocks of a list that does not hold `base` are those from before. -/
theorem blocks_asFree (hb : base ∉ bs) {f : ListMem Link → ListMem Link} :
    bs.map ((s.asFree base n).setLink f).block = bs.map s.block := by
  refine List.map_congr_left fun q hq => ?_
  have hne : q ≠ base := fun he => hb (he ▸ hq)
  simp [Pmm.block, Pmm.asFree, hne]

theorem range_asFree (hn : n < 2 ^ 32) {f : ListMem Link → ListMem Link} :
    ((s.asFree base n).setLink f).block base = (base, n) := by
  simp only [Pmm.block, Pmm.asFree, Pmm.pages_setLink, Pmm.pages_addNrFree, Pmm.property_setPageProperty,
    Pmm.property_setProperty, if_true, Nat.mod_eq_of_lt hn]

/-- Linking inside the list. -/
theorem linkBlock_inside (h : Canonical s bs ((base, n) :: out)) (hin : s.Inside base) :
    ∃ s' l₁ l₂, linkBlock base n s = .ok () s' ∧ BlockJoined s' l₁ base l₂ out ∧ (l₁ ++ l₂).map s'.block = bs.map s.block ∧
      s'.block base = (base, n) := by
  have hnot : base ∉ bs := h.list.out_not_mem (b := (base, n)) (by simp)
  have hn : n < 2 ^ 32 := by
    have hroom := h.list.room
    have hsmall := h.list.small
    simp only [List.map_cons, List.sum_cons] at hroom
    omega
  have hx : Link.page base ∉ Link.freeList :: bs.map .page := FreeList.page_not_mem_links hnot
  rcases h.inside_iff.mp hin with rfl | ⟨q, hq, hlt⟩
  · obtain ⟨s', hrun, hl⟩ := linkBlock_empty h.list
    obtain rfl : (s.asFree base n).setLink (listAdd · .freeList (.page base)) = s' := by
      rw [linkBlock_run, if_pos (h.ring.listEmpty_iff.mpr rfl)] at hrun
      simpa using hrun
    refine ⟨_, [], [], hrun, ⟨hl.inv, h.ring.listAdd_head hx, Gapped.nil⟩, rfl, range_asFree hn⟩
  · obtain ⟨l₁, l₂, rfl, h₁, h₂⟩ := split_around h.list.ascending hnot
    cases l₂ with
    | nil =>
      -- all of them are below
      rw [List.append_nil] at hq
      exact absurd hlt (Nat.lt_asymm (h₁ q hq))
    | cons z l₂ =>
      have hz : ¬ s.Stale z := h.ring.prev_ne (by simp)
      obtain ⟨s', hrun, hl⟩ := linkBlock_before h.list h₁ h₂ hz
      have hrun' : linkBlock base n s = .ok () ((s.asFree base n).setLink (listAddBefore · (.page z) (.page base))) := by
        rw [linkBlock_run, if_neg h.list.not_listEmpty]
        refine insertLoop_before (s := s.asFree base n) h.list.ring h₁ (h₂ z (by simp)) ?_
        have hlen := h.list.length_le
        simp only [List.length_append, List.length_cons] at hlen
        show l₁.length < s.npage + 2
        omega
      obtain rfl : (s.asFree base n).setLink (listAddBefore · (.page z) (.page base)) = s' := by
        simpa using hrun'.symm.trans hrun
      refine ⟨_, l₁, z :: l₂, hrun, ⟨hl.inv, ?_, ?_⟩, blocks_asFree hnot, range_asFree hn⟩
      · have hring : ListRing s.link .freeList (l₁.map .page ++ .page z :: l₂.map .page) := by
          simpa using h.ring
        simpa using hring.listAddBefore (x := .page base) (by simpa using hx)
      · rw [blocks_asFree hnot]
        exact h.gapped

/-! ## Merging -/

/-- The blocks once the one at `q` has joined the one at `p` in front of it. -/
theorem merged_block (h : FreeList s (l₁ ++ p :: q :: l₂) out) {f : ListMem Link → ListMem Link} (i : Nat) :
    (((s.setProperty p ((s.pages p).property + (s.pages q).property)).clearPageProperty q).setLink f).block i
      = if i = p then (p, (s.pages p).property + (s.pages q).property) else s.block i := by
  have hmod : ((s.pages p).property + (s.pages q).property) % 2 ^ 32 = (s.pages p).property + (s.pages q).property := by
    have hroom := h.room
    have hsmall := h.small
    have hc := h.count
    simp only [List.map_append, List.map_cons, List.sum_append, List.sum_cons] at hc
    exact Nat.mod_eq_of_lt (by omega)
  simp only [Pmm.block, Pmm.pages_setLink, Pmm.property_clearPageProperty, Pmm.property_setProperty, hmod]
  by_cases hi : i = p
  · simp only [hi, if_true]
  · simp only [hi, if_false]

/-- Merging two neighbours: the same pages, and one head less. -/
theorem merged_spec (h : FreeList s (l₁ ++ p :: q :: l₂) out)
    (hring : ListRing s.link .freeList ((l₁ ++ p :: q :: l₂).map .page)) (hadj : p + (s.pages p).property = q) :
    let s' := ((s.setProperty p ((s.pages p).property + (s.pages q).property)).clearPageProperty q).setLink
      (listDel · (.page q))
    FreeList s' (l₁ ++ p :: l₂) out ∧ ListRing s'.link .freeList ((l₁ ++ p :: l₂).map .page) ∧
      cover ((l₁ ++ p :: l₂).map s'.block) = cover ((l₁ ++ p :: q :: l₂).map s.block) ∧
      (∀ i, i ≠ p → s'.block i = s.block i) ∧ s'.block p = (p, (s.pages p).property + (s.pages q).property) := by
  intro s'
  have hblock := merged_block h (f := (listDel · (.page q)))
  have hother : ∀ i, i ≠ p → s'.block i = s.block i := fun i hi => (hblock i).trans (if_neg hi)
  have hself : s'.block p = (p, (s.pages p).property + (s.pages q).property) := (hblock p).trans (if_pos rfl)
  have hring' : ListRing s'.link .freeList ((l₁ ++ p :: l₂).map .page) := by
    have hcut : ListRing s.link .freeList ((l₁ ++ [p]).map .page ++ .page q :: l₂.map .page) := by
      simpa using hring
    simpa [s'] using hcut.listDel
  have hlist : FreeList s' (l₁ ++ p :: l₂) out := by
    refine h.merge hadj rfl rfl rfl hring'.next ?_
    have hst : ¬ s.Stale q := hring.prev_ne (by simp)
    have h' : FreeList s ((l₁ ++ [p]) ++ q :: l₂) out := by
      rw [List.append_assoc]
      exact h
    simpa [s'] using (h'.listDel hst).2
  refine ⟨hlist, hring', ?_, hother, hself⟩
  have hp : ∀ i ∈ l₁ ++ l₂, s'.block i = s.block i := by
    intro i hi
    refine hother i ?_
    rintro rfl
    exact (List.nodup_cons.mp (List.nodup_middle.mp hlist.nodup)).1 hi
  have h₁ : l₁.map s'.block = l₁.map s.block := List.map_congr_left fun i hi => hp i (List.mem_append_left _ hi)
  have h₂ : l₂.map s'.block = l₂.map s.block := List.map_congr_left fun i hi => hp i (List.mem_append_right _ hi)
  simp only [List.map_append, List.map_cons, cover_append, cover_cons, h₁, h₂, hself, range_add, hadj]
  rw [Set.union_assoc]
  rfl

theorem map_block_congr {l : List Nat} (hp : p ∉ l) (hblock : ∀ i, i ≠ p → s'.block i = s.block i) :
    l.map s'.block = l.map s.block :=
  List.map_congr_left fun i hi => hblock i fun he => hp (he ▸ hi)

/-- `default_free_pages` merges backwards: the block no longer touches the one in front of it. -/
theorem mergePrev_joined (h : BlockJoined s l₁ base l₂ out) :
    ∃ s' l p, mergePrev base s = .ok p s' ∧ BlockJoined s' l p l₂ out ∧ Gapped ((l ++ [p]).map s'.block) ∧
      cover ((l ++ p :: l₂).map s'.block) = cover ((l₁ ++ base :: l₂).map s.block) := by
  have hpos : 0 < (s.pages base).property := h.list.prop_pos (by simp)
  have hprev : listPrev s.link (.page base) = (l₁.map Link.page).getLastD .freeList := by
    have hring : ListRing s.link .freeList (l₁.map .page ++ .page base :: l₂.map .page) := by
      simpa using h.ring
    exact hring.prev_eq
  rcases List.eq_nil_or_concat l₁ with rfl | ⟨l, p, rfl⟩
  · refine ⟨s, [], base, mergePrev_keep (fun hc => hc.1 hprev), h, ?_, rfl⟩
    exact Gapped.cons.mpr ⟨hpos, by simp, Gapped.nil⟩
  · rw [List.concat_eq_append] at h hprev ⊢
    have hp : listPrev s.link (.page base) = .page p := by
      rw [hprev]
      simp
    have hgap := h.gapped
    rw [List.append_assoc, List.map_append, Gapped.append] at hgap
    obtain ⟨hl, hp₂, hl₂⟩ := hgap
    obtain ⟨hppos, hpgap, hg₂⟩ := Gapped.cons.mp (show Gapped (s.block p :: l₂.map s.block) from hp₂)
    -- all the blocks of `l` end before `p`
    have hlp : ∀ b ∈ l.map s.block, b.1 + b.2 < p := fun b hb => hl₂ b hb (s.block p) (by simp)
    by_cases hadj : p + (s.pages p).property = base
    · have hlist : FreeList s (l ++ p :: base :: l₂) out := by simpa using h.list
      have hring : ListRing s.link .freeList ((l ++ p :: base :: l₂).map .page) := by simpa using h.ring
      obtain ⟨hlist', hring', hcover, hother, hself⟩ := merged_spec hlist hring hadj
      have hnot := (List.nodup_cons.mp (List.nodup_middle.mp hlist'.nodup)).1
      have hl' := map_block_congr (fun hm => hnot (List.mem_append_left _ hm)) hother
      have hl₂' := map_block_congr (fun hm => hnot (List.mem_append_right _ hm)) hother
      refine ⟨_, l, p, mergePrev_join hp hadj, ⟨hlist', hring', ?_⟩, ?_, ?_⟩
      · rw [List.map_append, hl', hl₂']
        refine Gapped.append.mpr ⟨hl, hg₂, fun b hb c hc => ?_⟩
        exact hl₂ b hb c (List.mem_cons_of_mem _ hc)
      · rw [List.map_append, hl', List.map_singleton, hself]
        refine Gapped.append.mpr ⟨hl, Gapped.cons.mpr ⟨?_, by simp, Gapped.nil⟩, fun b hb c hc => ?_⟩
        · exact Nat.add_pos_right _ hpos
        · rw [List.mem_singleton.mp hc]
          exact hlp b hb
      · rw [hcover]
        simp
    · refine ⟨s, l ++ [p], base, mergePrev_keep ?_, h, ?_, rfl⟩
      · rw [hp]
        exact fun hc => hadj hc.2
      · have hsorted := h.list.sorted
        rw [List.append_assoc] at hsorted
        have hle : p + (s.pages p).property ≤ base :=
          (List.pairwise_cons.mp (List.pairwise_append.mp hsorted).2.1).1 base (by simp)
        rw [List.append_assoc, List.map_append]
        refine Gapped.append.mpr ⟨hl, ?_, fun b hb c hc => ?_⟩
        · refine Gapped.cons.mpr ⟨hppos, fun c hc => ?_, Gapped.cons.mpr ⟨hpos, by simp, Gapped.nil⟩⟩
          rw [List.mem_singleton.mp hc]
          exact Nat.lt_of_le_of_ne hle hadj
        · have hb' := hlp b hb
          simp only [List.singleton_append, List.map_cons, List.map_nil, List.mem_cons, List.not_mem_nil, or_false] at hc
          rcases hc with rfl | rfl
          · exact hb'
          · simp only [Pmm.block]
            omega

/-- ... and forwards: now no two blocks touch. -/
theorem mergeNext_joined (h : BlockJoined s l₁ base l₂ out) (hg : Gapped ((l₁ ++ [base]).map s.block)) :
    ∃ s' bs', mergeNext base s = .ok () s' ∧ Canonical s' bs' out ∧
      cover (bs'.map s'.block) = cover ((l₁ ++ base :: l₂).map s.block) := by
  have hnext : listNext s.link (.page base) = (l₂.map Link.page).headD .freeList := h.list.next_page
  have hgap := h.gapped
  rw [List.map_append, Gapped.append] at hgap
  obtain ⟨hl, hl₂, hl₁₂⟩ := hgap
  rw [List.map_append, Gapped.append] at hg
  obtain ⟨-, hb, hlb⟩ := hg
  have hpos : 0 < (s.block base).2 := hb.pos _ (by simp)
  cases l₂ with
  | nil =>
    refine ⟨s, l₁ ++ [base], mergeNext_keep (fun hc => hc.1 hnext), ⟨h.list, h.ring, ?_⟩, rfl⟩
    rw [List.map_append]
    exact Gapped.append.mpr ⟨hl, hb, hlb⟩
  | cons q l₂ =>
    have hq : listNext s.link (.page base) = .page q := hnext
    obtain ⟨hqpos, hqgap, hg₂⟩ := Gapped.cons.mp (show Gapped (s.block q :: l₂.map s.block) from hl₂)
    by_cases hadj : base + (s.pages base).property = q
    · obtain ⟨hlist', hring', hcover, hother, hself⟩ := merged_spec h.list h.ring hadj
      have hnot := (List.nodup_cons.mp (List.nodup_middle.mp hlist'.nodup)).1
      have hl' := map_block_congr (fun hm => hnot (List.mem_append_left _ hm)) hother
      have hl₂' := map_block_congr (fun hm => hnot (List.mem_append_right _ hm)) hother
      refine ⟨_, _, mergeNext_join hq hadj, ⟨hlist', hring', ?_⟩, hcover⟩
      rw [List.map_append, List.map_cons, hl', hl₂', hself]
      refine Gapped.append.mpr ⟨hl, Gapped.cons.mpr ⟨Nat.add_pos_left hpos _, fun c hc => ?_, hg₂⟩, fun b hb c hc => ?_⟩
      · have hlt := hqgap c hc
        simp only [Pmm.block] at hlt ⊢
        omega
      · rcases List.mem_cons.mp hc with rfl | hc
        · exact hlb b hb (s.block base) (by simp)
        · exact hl₁₂ b hb c (List.mem_cons_of_mem _ hc)
    · refine ⟨s, _, mergeNext_keep ?_, ⟨h.list, h.ring, ?_⟩, rfl⟩
      · rw [hq]
        exact fun hc => hadj hc.2
      · have hle : base + (s.pages base).property ≤ q :=
          (List.pairwise_cons.mp (List.pairwise_append.mp h.list.sorted).2.1).1 q (by simp)
        have hlt : base + (s.pages base).property < q := Nat.lt_of_le_of_ne hle hadj
        rw [List.map_append, List.map_cons]
        refine Gapped.append.mpr ⟨hl, Gapped.cons.mpr ⟨hpos, fun c hc => ?_, hl₂⟩, fun b hb c hc => ?_⟩
        · rcases List.mem_cons.mp hc with rfl | hc
          · exact hlt
          · have hlt' := hqgap c hc
            simp only [Pmm.block] at hlt' ⊢
            omega
        · rcases List.mem_cons.mp hc with rfl | hc
          · exact hlb b hb (s.block base) (by simp)
          · exact hl₁₂ b hb c hc

/-! ## Freeing -/

theorem Canonical.congr (h : Canonical s bs out) (hn : s'.npage = s.npage) (hl : s'.link = s.link)
    (hf : s'.nrFree = s.nrFree) (hpg : ∀ i, (s'.pages i).pgReserved = (s.pages i).pgReserved ∧
      (s'.pages i).pgProperty = (s.pages i).pgProperty ∧ (s'.pages i).property = (s.pages i).property) :
    Canonical s' bs out ∧ bs.map s'.block = bs.map s.block := by
  have hblock : bs.map s'.block = bs.map s.block := by
    refine List.map_congr_left fun q _ => ?_
    rw [Pmm.block, Pmm.block, (hpg q).2.2]
  refine ⟨⟨?_, ?_, ?_⟩, hblock⟩
  · exact h.list.congr hn hl hf (fun i => (hpg i).1) (fun i => (hpg i).2.1) fun i => (hpg i).2.2
  · rw [hl]
    exact h.ring
  · rw [hblock]
    exact h.gapped

/-- The page loop of `default_free_pages` comes through. -/
theorem Canonical.loop (h : Canonical s bs ((base, n) :: out)) :
    ∃ s₁, freePagesLoop base n s = .ok () s₁ ∧ Canonical s₁ bs ((base, n) :: out) ∧
      bs.map s₁.block = bs.map s.block ∧ (s₁.Inside base ↔ s.Inside base) := by
  obtain ⟨s₁, hloop, hnp, hl, hnr, hpg⟩ := freePagesLoop_run (h.list.plain (b := (base, n)) (by simp))
  obtain ⟨h₁, hblock⟩ := h.congr hnp hl hnr hpg
  refine ⟨s₁, hloop, h₁, hblock, ?_⟩
  rw [Pmm.Inside, Pmm.Inside, hl]

/-- **Freeing inside the list.** -/
theorem freePages_inside (h : Canonical s bs ((base, n) :: out)) (hin : s.Inside base) :
    ∃ s' bs', defaultFreePages base n s = .ok () s' ∧ Canonical s' bs' out ∧
      cover (bs'.map s'.block) = cover (bs.map s.block) ∪ range (base, n) := by
  have hn : 0 < n := (h.list.outUsable (base, n) (by simp)).1
  obtain ⟨s₁, hloop, h₁, hblock₁, hin₁⟩ := h.loop
  obtain ⟨s₂, l₁, l₂, hlink, hj₂, hblock₂, hself₂⟩ := linkBlock_inside h₁ (hin₁.mpr hin)
  obtain ⟨s₃, l, p, hprev, hj₃, hg₃, hcover₃⟩ := mergePrev_joined hj₂
  obtain ⟨s₄, bs', hnext, h₄, hcover₄⟩ := mergeNext_joined hj₃ hg₃
  refine ⟨s₄, bs', ?_, h₄, ?_⟩
  · unfold defaultFreePages
    rw [Proc.check_bind_pos hn, Proc.bind_ok hloop, Proc.bind_ok hlink, Proc.bind_ok hprev, hnext]
  · have hbs : cover (bs.map s.block) = cover (l₁.map s₂.block) ∪ cover (l₂.map s₂.block) := by
      rw [← hblock₁, ← hblock₂, List.map_append, cover_append]
    rw [hcover₄, hcover₃, List.map_append, List.map_cons, cover_append, cover_cons, hself₂, hbs, Set.union_assoc,
      Set.union_comm (range (base, n))]

/-- **Freeing behind the last block** leaves the new entry pointing back at itself. -/
theorem freePages_outside (h : Canonical s bs ((base, n) :: out)) (hout : ¬ s.Inside base) {s' : Pmm}
    (hrun : defaultFreePages base n s = .ok () s') : ∀ bs', ¬ Canonical s' bs' out := by
  have hus := h.list.outUsable (base, n) (by simp)
  have hnot : base ∉ bs := h.list.out_not_mem (b := (base, n)) (by simp)
  rw [h.inside_iff, not_or] at hout
  obtain ⟨hne, hall⟩ := hout
  obtain ⟨s₁, hloop, h₁, -, -⟩ := h.loop
  rcases List.eq_nil_or_concat bs with rfl | ⟨l, z, rfl⟩
  · exact absurd rfl hne
  · rw [List.concat_eq_append] at *
    have hbelow : ∀ q ∈ l ++ [z], q < base := by
      intro q hq
      have hle : ¬ base < q := fun hlt => hall ⟨q, hq, hlt⟩
      have hqb : q ≠ base := fun he => hnot (he ▸ hq)
      omega
    obtain ⟨s₂, hlink, hl₂⟩ := linkBlock_last h₁.list hbelow
    -- the entry itself was linked behind itself
    have hst : s₂.Stale base := by
      have hlink' : linkBlock base n s₁ = _ := linkBlock_run
      have hlen := h₁.list.length_le
      simp only [List.length_append, List.length_cons, List.length_nil] at hlen
      have hfuel : l.length + 2 < s₁.fuel := by
        show l.length + 2 < s₁.npage + 2
        omega
      rw [if_neg h₁.list.not_listEmpty, insertLoop_last (s := s₁.asFree base n) h₁.list.ring hbelow hfuel, hlink] at hlink'
      obtain rfl : s₂ = _ := by simpa using hlink'
      show listPrev (listAdd _ (Link.page base) (Link.page base)) (Link.page base) = Link.page base
      rw [listAdd, listAddAfter, listPrev_rawListAdd, Function.update_self]
    have hst' : listPrev s₂.link (.page base) = .page base := hst
    have hpos : 0 < (s₂.pages base).property := hl₂.inv.prop_pos (by simp)
    have hprev : mergePrev base s₂ = .ok base s₂ := by
      refine mergePrev_keep ?_
      rw [hst']
      rintro ⟨-, he⟩
      simp only [le2page] at he
      omega
    have hnext : mergeNext base s₂ = .ok () s₂ := mergeNext_keep fun hc => hc.1 hl₂.inv.next_page
    have hrun' : defaultFreePages base n s = .ok () s₂ := by
      unfold defaultFreePages
      rw [Proc.check_bind_pos hus.1, Proc.bind_ok hloop, Proc.bind_ok hlink, Proc.bind_ok hprev, hnext]
    obtain rfl : s₂ = s' := by simpa using hrun'.symm.trans hrun
    intro bs' hcan
    -- `base` is the head of a block, so it would have to be on the list
    have hu := (hl₂.inv.usable base (by simp)).2 base (Nat.le_refl _) (Nat.lt_add_of_pos_right hpos)
    have hflag : (s₂.pages base).pgProperty = true := (hl₂.inv.flag base hu.1 hu.2).mpr (by simp)
    have hmem : base ∈ bs' := (hcan.list.flag base hu.1 hu.2).mp hflag
    exact hcan.ring.prev_ne (List.mem_map_of_mem hmem) hst'

/-- Blocks freed one after the other. -/
def freeAll : List (Nat × Nat) → PmmM Unit
  | []     => pure ()
  | b :: l => do
    defaultFreePages b.1 b.2
    freeAll l

/-- ... none of them to the end of the list. -/
def AllInside : List (Nat × Nat) → Pmm → Prop
  | [], _     => True
  | b :: l, s => s.Inside b.1 ∧ ∀ s', defaultFreePages b.1 b.2 s = .ok () s' → AllInside l s'

theorem freeAll_run {l : List (Nat × Nat)} (h : Canonical s bs (l ++ out)) (hin : AllInside l s) :
    ∃ s' bs', freeAll l s = .ok () s' ∧ Canonical s' bs' out ∧
      cover (bs'.map s'.block) = cover (bs.map s.block) ∪ cover l := by
  induction l generalizing s bs with
  | nil => exact ⟨s, bs, rfl, h, by simp⟩
  | cons b l ih =>
    obtain ⟨s₁, bs₁, hrun, h₁, hcover⟩ := freePages_inside (show Canonical s bs ((b.1, b.2) :: (l ++ out)) from h) hin.1
    obtain ⟨s₂, bs₂, hrest, h₂, hcover₂⟩ := ih h₁ (hin.2 s₁ hrun)
    refine ⟨s₂, bs₂, ?_, h₂, ?_⟩
    · rw [freeAll, Proc.bind_ok hrun, hrest]
    · rw [hcover₂, hcover, cover_cons, Set.union_assoc]

/-- **`default_free_pages` keeps the maximal runs** exactly when it does not link the block at the end of a list that is not
    empty; and blocks freed without that, in whatever order, give one and the same list. -/
theorem freePages_canonical (h : Canonical s bs ((base, n) :: out)) :
    (FreesRuns s bs out base n ↔ s.Inside base) ∧
    ∀ l l' rest, ((base, n) :: out).Perm (l ++ rest) → l.Perm l' → AllInside l s → AllInside l' s →
      ∃ s₁ s₂ bs', freeAll l s = .ok () s₁ ∧ freeAll l' s = .ok () s₂ ∧ Canonical s₁ bs' rest ∧ Canonical s₂ bs' rest ∧
        bs'.map s₁.block = bs'.map s₂.block := by
  constructor
  · constructor
    · rintro ⟨s', bs', hrun, hcan, -⟩
      by_contra hout
      exact freePages_outside h hout hrun bs' hcan
    · intro hin
      obtain ⟨s', bs', hrun, hcan, hcover⟩ := freePages_inside h hin
      refine ⟨s', bs', hrun, hcan, fun b => ?_⟩
      rw [hcan.gapped.mem_iff, hcover]
  · intro l l' rest hall hperm hin hin'
    have h₁ : Canonical s bs (l ++ rest) := ⟨h.list.perm hall, h.ring, h.gapped⟩
    have h₂ : Canonical s bs (l' ++ rest) := ⟨h₁.list.perm (hperm.append_right rest), h.ring, h.gapped⟩
    obtain ⟨s₁, bs₁, hrun₁, hcan₁, hcover₁⟩ := freeAll_run h₁ hin
    obtain ⟨s₂, bs₂, hrun₂, hcan₂, hcover₂⟩ := freeAll_run h₂ hin'
    -- the same pages are free in the end
    have hcover : cover l = cover l' := by
      ext i
      simp only [mem_cover, hperm.mem_iff]
    have hblocks : bs₁.map s₁.block = bs₂.map s₂.block :=
      hcan₁.gapped.ext hcan₂.gapped (by rw [hcover₁, hcover₂, hcover])
    have hheads : bs₁ = bs₂ := by
      have hfst := congrArg (List.map Prod.fst) hblocks
      simpa [Pmm.block, Function.comp_def] using hfst
    subst hheads
    exact ⟨s₁, s₂, bs₁, hrun₁, hrun₂, hcan₁, hcan₂, hblocks⟩

/-- Four pages; the free block is the two pages from `q` on. -/
def fourPages (q : Nat) : Pmm where
  npage := 4
  pages := fun i => { ref := 0, pgReserved := false, pgProperty := i = q, property := if i = q then 2 else 0 }
  link := fun le => match le with
    | .freeList => { prev := .page q, next := .page q }
    | .page _   => { prev := .freeList, next := .freeList }
  nrFree := 2

theorem fourPages_canonical {q base : Nat} (h : (q = 0 ∧ base = 2) ∨ (q = 2 ∧ base = 0)) :
    Canonical (fourPages q) [q] [(base, 2)] := by
  have husable : ∀ b ∈ [(q, 2), (base, 2)], (fourPages q).Usable b := by
    intro b hb
    refine ⟨?_, fun i hi hi' => ⟨?_, rfl⟩⟩
    · simp only [List.mem_cons, List.not_mem_nil, or_false] at hb
      rcases hb with rfl | rfl
      · exact Nat.two_pos
      · exact Nat.two_pos
    · show i < 4
      simp only [List.mem_cons, List.not_mem_nil, or_false] at hb
      rcases hb with rfl | rfl
      · simp only at hi'
        omega
      · simp only at hi'
        omega
  have hblock : (fourPages q).block q = (q, 2) := by simp [Pmm.block, fourPages]
  refine ⟨⟨⟨rfl, rfl⟩, ⟨Or.inl rfl, trivial⟩, List.pairwise_singleton .., ?_, ?_, ?_, List.pairwise_singleton .., ?_, ?_, ?_⟩,
    ⟨⟨rfl, rfl⟩, ⟨rfl, rfl⟩, by simp⟩, ?_⟩
  · intro p hp
    rw [List.mem_singleton.mp hp, hblock]
    exact husable _ (by simp)
  · intro i _ _
    simp [fourPages]
  · intro b hb
    rw [List.mem_singleton.mp hb]
    exact husable _ (by simp)
  · intro b hb p hp
    rw [List.mem_singleton.mp hb, List.mem_singleton.mp hp, hblock, Apart]
    simp only
    omega
  · simp [fourPages]
  · show 4 < 2 ^ 32
    decide
  · rw [List.map_singleton, hblock]
    exact ⟨by simp, List.pairwise_singleton ..⟩

/-- The two pages in front of the block are freed. -/
theorem freePages_canonical_fourPages : FreesRuns (fourPages 2) [2] [] 0 2 :=
  (freePages_canonical (fourPages_canonical (.inr ⟨rfl, rfl⟩))).1.mpr (.inr (by decide))

/-- The two pages behind it: they are not merged, and the list is not intact. -/
theorem freePages_not_canonical : ¬ ∀ s bs out base n, Canonical s bs ((base, n) :: out) → FreesRuns s bs out base n := by
  intro hall
  obtain ⟨s', bs', hrun, hcan, -⟩ := hall _ _ _ _ _ (fourPages_canonical (q := 0) (.inl ⟨rfl, rfl⟩))
  refine freePages_outside (fourPages_canonical (q := 0) (.inl ⟨rfl, rfl⟩)) ?_ hrun bs' hcan
  rintro (h | h)
  · exact absurd h (by decide)
  · exact absurd h (by decide)

end Ucore
