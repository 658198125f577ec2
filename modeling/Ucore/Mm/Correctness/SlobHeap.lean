import Ucore.Lib.BlockRing
import Ucore.Mm.Kmalloc

/-!
# `Mm.Correctness.SlobHeap` — the free list of `slob_alloc` and `slob_free`

`Heap s F P E`: the blocks `F` are free and linked in the order of their addresses, the blocks `E` are given out, and both
together make up the arena and the pages `P`. `slob_free` and `slob_alloc` keep this as long as the list has another block
than the one they work on; see `Heap.free` and `Heap.take`.
-/

namespace Ucore.Slob

open Blocks

variable {s s' : SlobMem} {F P : Finset Nat} {E : List (Nat × Nat)} {a b c n p x y : Nat}

/-! ## Blocks in memory -/

/-- The length of a block in bytes -/
def SlobMem.len (s : SlobMem) (x : Nat) : Nat := 16 * s.units x

theorem len_setUnits (s : SlobMem) (b v : Nat) : (s.setUnits b v).len = Function.update s.len b (16 * v) := by
  funext x
  by_cases hx : x = b
  · subst hx
    show 16 * Function.update s.lo x v x = _
    rw [Function.update_self, Function.update_self]
  · show 16 * Function.update s.lo b v x = _
    rw [Function.update_of_ne hx, Function.update_of_ne hx]
    rfl

theorem next_setNext (s : SlobMem) (b v : Nat) : (s.setNext b v).next = Function.update s.next b v := rfl

/-- The address lies in the block, which has its number of units. -/
def InExt (e : Nat × Nat) (a : Nat) : Prop := e.1 ≤ a ∧ a < e.1 + 16 * e.2

/-- The memory that blocks are cut from -/
def Owned (s : SlobMem) (P : Finset Nat) (a : Nat) : Prop :=
  (s.arena ≤ a ∧ a < s.arena + 16) ∨ a / 4096 * 4096 ∈ P

structure Heap (s : SlobMem) (F P : Finset Nat) (E : List (Nat × Nat)) : Prop where
  arena : 0 < s.arena
  first : s.slobfree ∈ F
  blocks : Blocks F s.len s.next
  noTouch : NoTouch F s.len
  live : ∀ e ∈ E, 0 < e.2
  apart : ∀ e ∈ E, ∀ a, InExt e a → ¬ Covered F s.len a
  distinct : E.Pairwise fun e f => ∀ a, InExt e a → ¬ InExt f a
  own : ∀ a, Covered F s.len a ∨ (∃ e ∈ E, InExt e a) → Owned s P a
  account : total F s.len + 16 * (E.map Prod.snd).sum = 16 * (256 * P.card + 1)
  page : ∀ p ∈ P, p % 4096 = 0 ∧ s.arena + 16 < p
  taken : P ⊆ s.taken

/-- What a search for a free block does not change: all but the headers of `b` and of free blocks -/
structure SameBut (s s' : SlobMem) (F : Finset Nat) (b : Nat) : Prop where
  arena : s'.arena = s.arena
  bigblocks : s'.bigblocks = s.bigblocks
  taken : s'.taken = s.taken
  pick : s'.pick = s.pick
  ticks : s'.ticks = s.ticks
  lo : ∀ a, a ≠ b → a ∉ F → s'.lo a = s.lo a
  hi : ∀ a, a ≠ b → a ∉ F → s'.hi a = s.hi a

namespace Heap

theorem inExt_start (h : Heap s F P E) (he : (b, n) ∈ E) : InExt (b, n) b := by
  have hpos : 0 < n := h.live _ he
  refine ⟨Nat.le_refl b, ?_⟩
  show b < b + 16 * n
  omega

theorem covered_start (h : Heap s F P E) (hx : x ∈ F) : Covered F s.len x :=
  ⟨x, hx, Nat.le_refl x, Nat.lt_add_of_pos_right (h.blocks.pos x hx)⟩

theorem notMem_free (h : Heap s F P E) (he : (b, n) ∈ E) : b ∉ F := fun hb =>
  h.apart _ he b (h.inExt_start he) (h.covered_start hb)

/-- A live block is on one side of each free block. -/
theorem apart_free (h : Heap s F P E) (he : (b, n) ∈ E) (hx : x ∈ F) : x + s.len x ≤ b ∨ b + 16 * n ≤ x := by
  by_contra hover
  -- the later one of the two begins in both
  by_cases hle : b ≤ x
  · refine h.apart _ he x ⟨hle, ?_⟩ (h.covered_start hx)
    show x < b + 16 * n
    omega
  · exact h.apart _ he b (h.inExt_start he) ⟨x, hx, by omega, by omega⟩

theorem pos_of_owned (h : Heap s F P E) (ha : Owned s P a) : 0 < a := by
  have harena := h.arena
  rcases ha with ⟨hlo, -⟩ | hmem
  · omega
  · have hp := (h.page _ hmem).2
    have hle := Nat.div_mul_le_self a 4096
    omega

end Heap

/-! ## Joining a block with its neighbours -/

/-- A block that follows itself is the only one. -/
theorem lone_of_next (h : Blocks F s.len s.next) (hc : c ∈ F) (hnext : s.next c = c) : F = {c} := by
  have hring := h.ring c hc
  rw [hnext] at hring
  obtain ⟨-, ⟨hlt, -⟩ | ⟨-, hall⟩⟩ := hring
  · exact absurd hlt (Nat.lt_irrefl c)
  · refine Finset.eq_singleton_iff_unique_mem.mpr ⟨hc, fun x hx => ?_⟩
    have hx' := hall x hx
    omega

theorem joinNext_touch (ht : b + s.len b = s.next c) : (joinNext s c b).len = Function.update s.len b (s.len b + s.len (s.next c)) ∧
    (joinNext s c b).next = Function.update s.next b (s.next (s.next c)) := by
  have hcond : b + slobUnit * s.units b = s.next c := ht
  rw [joinNext, if_pos hcond]
  refine ⟨?_, rfl⟩
  show (s.setUnits b (s.units b + s.units (s.next c))).len = _
  rw [len_setUnits, Nat.mul_add]
  rfl

theorem joinNext_apart (ht : b + s.len b ≠ s.next c) :
    (joinNext s c b).len = s.len ∧ (joinNext s c b).next = Function.update s.next b (s.next c) := by
  have hcond : b + slobUnit * s.units b ≠ s.next c := ht
  rw [joinNext, if_neg hcond]
  exact ⟨rfl, rfl⟩

theorem joinPrev_touch (ht : c + s.len c = b) : (joinPrev s c b).len = Function.update s.len c (s.len c + s.len b) ∧
    (joinPrev s c b).next = Function.update s.next c (s.next b) := by
  have hcond : c + slobUnit * s.units c = b := ht
  rw [joinPrev, if_pos hcond]
  refine ⟨?_, rfl⟩
  show (s.setUnits c (s.units c + s.units b)).len = _
  rw [len_setUnits, Nat.mul_add]
  rfl

theorem joinPrev_apart (ht : c + s.len c ≠ b) :
    (joinPrev s c b).len = s.len ∧ (joinPrev s c b).next = Function.update s.next c b := by
  have hcond : c + slobUnit * s.units c ≠ b := ht
  rw [joinPrev, if_neg hcond]
  exact ⟨rfl, rfl⟩

/-- **First half**: `b` is put behind `c`, and joined with the block behind it if they touch. Only `c` may touch it then. -/
theorem joinNext_blocks (h : Blocks F s.len s.next) (hnt : NoTouch F s.len) (hc : c ∈ F) (hb : b ∉ F) (hstop : Stop s.next b c)
    (hpos : 0 < s.len b) (hapart : ∀ z ∈ F, z + s.len z ≤ b ∨ b + s.len b ≤ z) (hlone : F = {c} → b + s.len b ≠ c) :
    ∃ F1, Blocks F1 (joinNext s c b).len (Function.update (joinNext s c b).next c b) ∧ c ∈ F1 ∧ b ∈ F1 ∧ F1 ⊆ insert b F ∧
      (∀ x y, Touch F1 (joinNext s c b).len x y → x = c ∧ y = b) ∧
      (∀ a, Covered F1 (joinNext s c b).len a ↔ Covered F s.len a ∨ b ≤ a ∧ a < b + s.len b) ∧
      total F1 (joinNext s c b).len = total F s.len + s.len b := by
  have hcb : c ≠ b := fun he => hb (he ▸ hc)
  have hins := h.insert hc hb hstop hpos hapart
  have htouch : ∀ x y, Touch (insert b F) s.len x y → x = b ∧ y = s.next c ∨ x = c ∧ y = b := by
    intro x y ht
    rw [← Function.update_eq_self b s.len] at ht
    exact (h.touch_insert hc hb hstop hpos hapart ht).resolve_left (hnt x y)
  have hcov : ∀ a, Covered (insert b F) s.len a ↔ Covered F s.len a ∨ b ≤ a ∧ a < b + s.len b := by
    intro a
    have hiff : Covered (insert b F) (Function.update s.len b (s.len b)) a ↔ _ := covered_insert hb
    rwa [Function.update_eq_self] at hiff
  have htot : total (insert b F) s.len = total F s.len + s.len b := by
    have heq : total (insert b F) (Function.update s.len b (s.len b)) = _ := total_insert hb
    rwa [Function.update_eq_self] at heq
  rw [Function.update_eq_self] at hins
  have hbi := Finset.mem_insert_self b F
  have hnx := h.next_mem hc
  have hnb : s.next c ≠ b := fun he => hb (he ▸ hnx)
  by_cases ht : b + s.len b = s.next c
  · -- the block behind becomes a part of `b`
    have hnc : s.next c ≠ c := fun he => hlone (lone_of_next h hc he) (ht.trans he)
    have hnext : Function.update (Function.update s.next b (s.next c)) c b b = s.next c := by
      rw [Function.update_of_ne hcb.symm, Function.update_self]
    have hnext' : Function.update (Function.update s.next b (s.next c)) c b (s.next c) = s.next (s.next c) := by
      rw [Function.update_of_ne hnc, Function.update_of_ne hnb]
    have hjoin := hins.absorb hbi (ht.trans hnext.symm)
    rw [hnext, hnext'] at hjoin
    have hni : s.next c ∈ insert b F := Finset.mem_insert_of_mem hnx
    obtain ⟨hlen, hnew⟩ := joinNext_touch ht
    rw [hlen, hnew]
    refine ⟨(insert b F).erase (s.next c), hjoin.congr (fun _ _ => rfl) ?_, ?_, ?_, Finset.erase_subset _ _, ?_, ?_, ?_⟩
    · intro z _
      by_cases hzb : z = b
      · rw [hzb, Function.update_of_ne hcb.symm, Function.update_self, Function.update_self]
      · rw [Function.update_of_ne hzb]
        by_cases hzc : z = c
        · rw [hzc, Function.update_self, Function.update_self]
        · rw [Function.update_of_ne hzc, Function.update_of_ne hzc, Function.update_of_ne hzb, Function.update_of_ne hzb]
    · exact Finset.mem_erase.mpr ⟨hnc.symm, Finset.mem_insert_of_mem hc⟩
    · exact Finset.mem_erase.mpr ⟨hnb.symm, hbi⟩
    · intro x y hxy
      rcases touch_absorb hni ht hxy with ⟨-, hny⟩ | ⟨hxb, hold⟩
      · -- the block behind touched nothing
        rcases htouch _ _ hny with ⟨he, -⟩ | ⟨he, -⟩
        · exact absurd he hnb
        · exact absurd he hnc
      · exact (htouch x y hold).resolve_left fun he => hxb he.1
    · intro a
      rw [covered_absorb hbi hni ht hnb.symm]
      exact hcov a
    · rw [total_absorb hbi hni hnb.symm]
      exact htot
  · obtain ⟨hlen, hnew⟩ := joinNext_apart ht
    rw [hlen, hnew]
    refine ⟨insert b F, hins, Finset.mem_insert_of_mem hc, hbi, Finset.Subset.refl _, ?_, hcov, htot⟩
    intro x y hxy
    refine (htouch x y hxy).resolve_left ?_
    rintro ⟨rfl, rfl⟩
    exact ht hxy.2.2

/-- **Second half**: the block in front of `b` is joined with it if they touch. -/
theorem joinPrev_blocks (h : Blocks F s.len (Function.update s.next c b)) (hc : c ∈ F) (hb : b ∈ F) (hcb : c ≠ b)
    (htouch : ∀ x y, Touch F s.len x y → x = c ∧ y = b) :
    ∃ F2, Blocks F2 (joinPrev s c b).len (joinPrev s c b).next ∧ c ∈ F2 ∧ F2 ⊆ F ∧ NoTouch F2 (joinPrev s c b).len ∧
      (∀ a, Covered F2 (joinPrev s c b).len a ↔ Covered F s.len a) ∧ total F2 (joinPrev s c b).len = total F s.len := by
  by_cases ht : c + s.len c = b
  · have hnext : Function.update s.next c b c = b := Function.update_self ..
    have hnext' : Function.update s.next c b b = s.next b := Function.update_of_ne hcb.symm ..
    have hjoin := h.absorb hc (ht.trans hnext.symm)
    rw [hnext, hnext', Function.update_idem] at hjoin
    obtain ⟨hlen, hnew⟩ := joinPrev_touch ht
    rw [hlen, hnew]
    refine ⟨F.erase b, hjoin, Finset.mem_erase.mpr ⟨hcb, hc⟩, Finset.erase_subset _ _, ?_, fun a => ?_, ?_⟩
    · intro x y hxy
      rcases touch_absorb hb ht hxy with ⟨-, hby⟩ | ⟨hxc, hold⟩
      · exact hcb (htouch _ _ hby).1.symm
      · exact hxc (htouch x y hold).1
    · exact covered_absorb hc hb ht hcb
    · exact total_absorb hc hb hcb
  · obtain ⟨hlen, hnew⟩ := joinPrev_apart ht
    rw [hlen, hnew]
    refine ⟨F, h, hc, Finset.Subset.refl _, fun x y hxy => ?_, fun _ => Iff.rfl, rfl⟩
    obtain ⟨rfl, rfl⟩ := htouch x y hxy
    exact ht hxy.2.2

/-! ## `slob_free` -/

/-- **The search** for the place of `b` finds it; if it had not enough rounds, that was because the place is further away. -/
theorem slobFind_cases (h : Blocks F s.len s.next) (hb : b ∉ F) (hc : c ∈ F) (fuel : Nat) :
    slobFind s b fuel c = none ∧ fuel ≤ gap F b c ∨ ∃ c', slobFind s b fuel c = some c' ∧ c' ∈ F ∧ Stop s.next b c' := by
  induction fuel generalizing c with
  | zero => exact .inl ⟨rfl, Nat.zero_le _⟩
  | succ fuel ih =>
    rw [slobFind]
    by_cases hin : b > c ∧ b < s.next c
    · rw [if_pos hin]
      exact .inr ⟨c, rfl, hc, .inl hin⟩
    · rw [if_neg hin]
      by_cases hwrap : c ≥ s.next c ∧ (b > c ∨ b < s.next c)
      · rw [if_pos hwrap]
        exact .inr ⟨c, rfl, hc, .inr hwrap⟩
      · rw [if_neg hwrap]
        have hne : s.next c ≠ b := fun he => hb (he ▸ h.next_mem hc)
        have hlt := h.gap_lt hc hne (not_or.mpr ⟨hin, hwrap⟩)
        rcases ih (h.next_mem hc) with ⟨hnone, hle⟩ | hsome
        · exact .inl ⟨hnone, by omega⟩
        · exact .inr hsome

theorem sameBut_joins (hc : c ∈ F) (b : Nat) : SameBut s { joinPrev (joinNext s c b) c b with slobfree := c } F b := by
  have hkeep' : ∀ (f : Nat → Nat) (w : Nat), ∀ a, a ∉ F → Function.update f c w a = f a := by
    intro f w a haF
    refine Function.update_of_ne ?_ _ _
    rintro rfl
    exact haF hc
  have hkeepb : ∀ (f : Nat → Nat) (v : Nat), ∀ a, a ≠ b → Function.update f b v a = f a := fun f v a hab =>
    Function.update_of_ne hab _ _
  -- both halves only write the headers of `b` and `c`
  have hnext : SameBut s (joinNext s c b) F b := by
    rw [joinNext]
    split
    · exact ⟨rfl, rfl, rfl, rfl, rfl, fun a hab _ => hkeepb _ _ a hab, fun a hab _ => hkeepb _ _ a hab⟩
    · exact ⟨rfl, rfl, rfl, rfl, rfl, fun _ _ _ => rfl, fun a hab _ => hkeepb _ _ a hab⟩
  generalize joinNext s c b = s1 at hnext
  have hprev : SameBut s1 (joinPrev s1 c b) F b := by
    rw [joinPrev]
    split
    · exact ⟨rfl, rfl, rfl, rfl, rfl, fun a _ haF => hkeep' _ _ a haF, fun a _ haF => hkeep' _ _ a haF⟩
    · exact ⟨rfl, rfl, rfl, rfl, rfl, fun _ _ _ => rfl, fun a _ haF => hkeep' _ _ a haF⟩
  refine ⟨hprev.arena.trans hnext.arena, hprev.bigblocks.trans hnext.bigblocks, hprev.taken.trans hnext.taken,
    hprev.pick.trans hnext.pick, hprev.ticks.trans hnext.ticks, fun a hab haF => ?_, fun a hab haF => ?_⟩
  · exact (hprev.lo a hab haF).trans (hnext.lo a hab haF)
  · exact (hprev.hi a hab haF).trans (hnext.hi a hab haF)

theorem sum_erase {e : Nat × Nat} (he : e ∈ E) : (E.map Prod.snd).sum = e.2 + ((E.erase e).map Prod.snd).sum := by
  have hperm := (List.perm_cons_erase he).map Prod.snd
  rw [hperm.sum_eq, List.map_cons, List.sum_cons]

/-- **A live block becomes free** behind the block `c`. -/
theorem Heap.free (h : Heap s F P E) (he : (b, n) ∈ E) (hu : s.units b = n) (hc : c ∈ F) (hstop : Stop s.next b c)
    (hlone : ∀ x, F = {x} → b + 16 * n ≠ x) :
    ∃ F', Heap { joinPrev (joinNext s c b) c b with slobfree := c } F' P (E.erase (b, n)) ∧ F' ⊆ insert b F ∧
      ∀ a, Covered F' (joinPrev (joinNext s c b) c b).len a ↔ Covered F s.len a ∨ InExt (b, n) a := by
  have hb := h.notMem_free he
  have hlen : s.len b = 16 * n := by
    rw [← hu]
    rfl
  have hpos : 0 < s.len b := by
    have hlive : 0 < n := h.live _ he
    omega
  have hapart : ∀ z ∈ F, z + s.len z ≤ b ∨ b + s.len b ≤ z := by
    intro z hz
    rw [hlen]
    exact h.apart_free he hz
  have hlone' : F = {c} → b + s.len b ≠ c := by
    rw [hlen]
    exact hlone c
  obtain ⟨F1, hblocks1, hc1, hb1, hsub1, htouch1, hcov1, htot1⟩ :=
    joinNext_blocks h.blocks h.noTouch hc hb hstop hpos hapart hlone'
  have hcb : c ≠ b := fun hcb => hb (hcb ▸ hc)
  obtain ⟨F2, hblocks2, hc2, hsub2, hnt2, hcov2, htot2⟩ := joinPrev_blocks hblocks1 hc1 hb1 hcb htouch1
  have hsame := sameBut_joins (s := s) hc b
  have htaken : (joinPrev (joinNext s c b) c b).taken = s.taken := hsame.taken
  have harena : (joinPrev (joinNext s c b) c b).arena = s.arena := hsame.arena
  have hown : ∀ a, Owned { joinPrev (joinNext s c b) c b with slobfree := c } P a ↔ Owned s P a := by
    intro a
    rw [Owned, Owned, ← harena]
  have hcov : ∀ a, Covered F2 (joinPrev (joinNext s c b) c b).len a ↔ Covered F s.len a ∨ InExt (b, n) a := by
    intro a
    rw [hcov2, hcov1, hlen]
    rfl
  have hmem : ∀ e ∈ E.erase (b, n), e ∈ E := fun e he' => List.mem_of_mem_erase he'
  refine ⟨F2, ⟨?_, hc2, hblocks2, hnt2, fun e he' => h.live e (hmem e he'), ?_, ?_, ?_, ?_, ?_, ?_⟩, hsub2.trans hsub1, hcov⟩
  · show 0 < (joinPrev (joinNext s c b) c b).arena
    rw [harena]
    exact h.arena
  · intro e he' a ha hcova
    rcases (hcov a).mp hcova with hold | hnew
    · exact h.apart e (hmem e he') a ha hold
    · -- the other live blocks are apart from `b`
      have hperm := List.perm_cons_erase he
      have hsymm : ∀ {e f : Nat × Nat}, (∀ a, InExt e a → ¬ InExt f a) → ∀ a, InExt f a → ¬ InExt e a :=
        fun hef a hf hea => hef a hea hf
      have hdis := (hperm.pairwise_iff hsymm).mp h.distinct
      exact List.rel_of_pairwise_cons hdis he' a hnew ha
  · exact h.distinct.sublist List.erase_sublist
  · intro a ha
    refine (hown a).mpr (h.own a ?_)
    rcases ha with ha | ⟨e, he', ha⟩
    · exact ((hcov a).mp ha).imp_right fun hb' => ⟨_, he, hb'⟩
    · exact .inr ⟨e, hmem e he', ha⟩
  · have hacc := h.account
    have hsum := sum_erase he
    show total F2 (joinPrev (joinNext s c b) c b).len + _ = _
    rw [htot2, htot1, hlen]
    omega
  · intro p hp
    show p % 4096 = 0 ∧ (joinPrev (joinNext s c b) c b).arena + 16 < p
    rw [harena]
    exact h.page p hp
  · show P ⊆ (joinPrev (joinNext s c b) c b).taken
    rw [htaken]
    exact h.taken

/-- Only the headers of free blocks matter. -/
theorem Heap.congr (h : Heap s F P E) (harena : s'.arena = s.arena) (hfirst : s'.slobfree = s.slobfree)
    (hlo : ∀ x ∈ F, s'.lo x = s.lo x) (hhi : ∀ x ∈ F, s'.hi x = s.hi x) (htaken : P ⊆ s'.taken) : Heap s' F P E := by
  have hlen : ∀ x ∈ F, s'.len x = s.len x := fun x hx => congrArg (16 * ·) (hlo x hx)
  have hown : ∀ a, Owned s' P a ↔ Owned s P a := by
    intro a
    rw [Owned, Owned, harena]
  refine ⟨?_, ?_, h.blocks.congr hlen hhi, h.noTouch.congr hlen, h.live, ?_, h.distinct, ?_, ?_, ?_, htaken⟩
  · rw [harena]
    exact h.arena
  · rw [hfirst]
    exact h.first
  · intro e he a ha
    rw [Covered.congr hlen]
    exact h.apart e he a ha
  · intro a ha
    rw [Covered.congr hlen] at ha
    exact (hown a).mpr (h.own a ha)
  · rw [total_congr hlen]
    exact h.account
  · rw [harena]
    exact h.page

/-- **`slob_free`** of a live block. Without enough rounds its search is not over. -/
theorem slobFree_meets (h : Heap s F P E) (he : (b, n) ∈ E) {size : Nat} (hsize : size = 0 → s.units b = n)
    (hsize' : size ≠ 0 → slobUnits size = n) (hlone : ∀ x, F = {x} → b + 16 * n ≠ x) (fuel : Nat) :
    (slobFree fuel b size s).Meets
      (fun _ s' => SameBut s s' F b ∧ ∃ F', Heap s' F' P (E.erase (b, n)) ∧ F' ⊆ insert b F ∧
        ∀ a, Covered F' s'.len a ↔ Covered F s.len a ∨ InExt (b, n) a)
      (fun _ _ => False) fun p => p = .noEnd ∧ fuel ≤ F.card := by
  have hb := h.notMem_free he
  have hb0 : b ≠ 0 := Nat.pos_iff_ne_zero.mp (h.pos_of_owned (h.own b (.inr ⟨_, he, h.inExt_start he⟩)))
  -- the header of `b` is not one of a free block
  have hmark : (markUnits s b size).units b = n ∧ Heap (markUnits s b size) F P E ∧ SameBut s (markUnits s b size) F b ∧
      ∀ x ∈ F, (markUnits s b size).len x = s.len x := by
    rw [markUnits]
    by_cases hz : size = 0
    · rw [if_neg (not_not_intro hz)]
      exact ⟨hsize hz, h, ⟨rfl, rfl, rfl, rfl, rfl, fun _ _ _ => rfl, fun _ _ _ => rfl⟩, fun _ _ => rfl⟩
    · have hkeep := update_of_notMem hb s.lo (slobUnits size)
      rw [if_pos hz]
      refine ⟨?_, h.congr rfl rfl hkeep (fun _ _ => rfl) h.taken, ?_, fun x hx => congrArg (16 * ·) (hkeep x hx)⟩
      · exact (Function.update_self b _ s.lo).trans (hsize' hz)
      · exact ⟨rfl, rfl, rfl, rfl, rfl, fun a hab _ => Function.update_of_ne hab _ s.lo, fun _ _ _ => rfl⟩
  obtain ⟨hu, h1, hsame1, hlen⟩ := hmark
  rw [slobFree, if_neg hb0, Proc.modify_bind, Proc.get_bind]
  generalize markUnits s b size = s1 at hu h1 hsame1 hlen
  rcases slobFind_cases h1.blocks hb h1.first fuel with ⟨hnone, hle⟩ | ⟨c, hsome, hc, hstop⟩
  · simp only [hnone]
    exact ⟨rfl, hle.trans (gap_le F b _)⟩
  · simp only [hsome]
    have hsame2 := sameBut_joins (s := s1) hc b
    obtain ⟨F', h', hsub, hcov⟩ := h1.free he hu hc hstop hlone
    refine ⟨?_, F', h', hsub, fun a => (hcov a).trans (or_congr_left (Covered.congr hlen))⟩
    refine ⟨hsame2.arena.trans hsame1.arena, hsame2.bigblocks.trans hsame1.bigblocks, hsame2.taken.trans hsame1.taken,
      hsame2.pick.trans hsame1.pick, hsame2.ticks.trans hsame1.ticks, fun a hab haF => ?_, fun a hab haF => ?_⟩
    · exact (hsame2.lo a hab haF).trans (hsame1.lo a hab haF)
    · exact (hsame2.hi a hab haF).trans (hsame1.hi a hab haF)

end Ucore.Slob
