import Ucore.Mm.Correctness.Memories
import Ucore.Mm.Correctness.Teardown

/-!
# `Mm.Correctness.PageCells` — user pages as places that share cells

The places are the user pages of the directories, and their cells are the pages that are mapped there. This is what the
functions of `pmm.c` do to them, whoever has the right to write to a page: in `lab5_challenge` an entry says so, in `lab8` a page belongs
to the one process that maps it.

`exit_mmap` takes them away again: `unmap_range` the pages of a directory, and `exit_range` the tables that it finds. What
`exit_range` does not find is lost, neither free nor in use. No other directory is touched.
-/

namespace Ucore

namespace PageMem

/-- `own` says which entries give their page away for writing. -/
def cells (own : Pte → Bool) (D : Finset Nat) (s : PageMem) : Cells (Nat × Nat) Nat PageBytes where
  cell k := if k ∈ places D then s.maps k.1 k.2 else none
  own k := decide (k ∈ places D) && own (s.leaf k.1 k.2)
  data p := pageBytes (s.data p)

variable {own : Pte → Bool} {s s' s₁ : PageMem} {D : Finset Nat} {L : Nat → Prop} {d d' n m p la page : Nat} {e : Pte} {perm : Perm}
  {k : Nat × Nat}

theorem cells_cell (hd : d ∈ D) (hn : n < userPages) : (s.cells own D).cell (d, n) = s.maps d n := if_pos (mem_places.mpr ⟨hd, hn⟩)

theorem cells_own (hd : d ∈ D) (hn : n < userPages) : (s.cells own D).own (d, n) = own (s.leaf d n) := by
  simp [cells, mem_places, hd, hn]

/-- The cell of a place that is not a user page. -/
theorem cells_out (hk : k ∉ places D) : (s.cells own D).cell k = none := if_neg hk

theorem mem_places_of_cell (h : (s.cells own D).cell k = some p) : k ∈ places D := by
  by_contra hk
  rw [cells_out hk] at h
  cases h

theorem cells_view (hd : d ∈ D) (hn : n < userPages) : (s.cells own D).view (d, n) = s.pageAt d n := by
  rw [Cells.view, cells_cell hd hn]
  rfl

/-- A page without a valid entry is not seen. -/
theorem view_of_not_v (hv : ¬ (s.leaf d n).v = true) : (s.cells own D).view (d, n) = none := by
  rw [Cells.view_eq_none]
  by_cases hk : (d, n) ∈ places D
  · obtain ⟨hd, hn⟩ := mem_places.mp hk
    rw [cells_cell hd hn, maps, if_neg hv]
  · exact cells_out hk

/-- A mapped page is seen. -/
theorem view_of_v (hd : d ∈ D) (hn : n < userPages) (hv : (s.leaf d n).v = true) :
    (s.cells own D).view (d, n) = some (pageBytes (s.data (s.leaf d n).ppn)) := by
  rw [cells_view hd hn, PageMem.pageAt, maps_eq_some.mpr ⟨hv, rfl⟩]
  rfl

/-- Neither an entry nor a byte has changed. -/
theorem cells_congr (hleaf : ∀ d ∈ D, ∀ n, n < userPages → s'.leaf d n = s.leaf d n) (hdata : s'.data = s.data) :
    s'.cells own D = s.cells own D := by
  have hmaps : ∀ k ∈ places D, s'.maps k.1 k.2 = s.maps k.1 k.2 := by
    intro k hk
    obtain ⟨hk₁, hk₂⟩ := mem_places.mp hk
    exact maps_of_leaf (hleaf k.1 hk₁ k.2 hk₂)
  unfold cells
  congr 1
  · funext k
    split
    · next hk => exact hmaps k hk
    · rfl
  · funext k
    by_cases hk : k ∈ places D
    · obtain ⟨hk₁, hk₂⟩ := mem_places.mp hk
      rw [hleaf k.1 hk₁ k.2 hk₂]
    · simp [hk]
  · rw [hdata]

/-- One entry is written. -/
theorem cells_put (hd : d ∈ D) (hn : n < userPages)
    (hleaf : ∀ d' ∈ D, ∀ m, m < userPages → s'.leaf d' m = if d' = d ∧ m = n then e else s.leaf d' m) (hdata : s'.data = s.data) :
    s'.cells own D = (s.cells own D).put (d, n) (target e) (own e) := by
  have hmem : (d, n) ∈ places D := mem_places.mpr ⟨hd, hn⟩
  unfold cells Cells.put
  congr 1
  · funext k
    by_cases hk : k = (d, n)
    · subst hk
      rw [Function.update_self, if_pos hmem, maps_of_written (hleaf d hd n hn), if_pos ⟨rfl, rfl⟩]
    · rw [Function.update_of_ne hk]
      dsimp only
      split
      · next hin =>
        obtain ⟨hk₁, hk₂⟩ := mem_places.mp hin
        rw [maps_of_written (hleaf k.1 hk₁ k.2 hk₂), if_neg fun heq => hk (Prod.ext heq.1 heq.2)]
      · rfl
  · funext k
    by_cases hk : k = (d, n)
    · subst hk
      rw [Function.update_self, hleaf d hd n hn, if_pos ⟨rfl, rfl⟩]
      simp [hmem]
    · rw [Function.update_of_ne hk]
      by_cases hin : k ∈ places D
      · obtain ⟨hk₁, hk₂⟩ := mem_places.mp hin
        rw [hleaf k.1 hk₁ k.2 hk₂, if_neg fun heq => hk (Prod.ext heq.1 heq.2)]
      · simp [hin]
  · rw [hdata]

/-- The bytes of a page are written. -/
theorem cells_setData (s : PageMem) (D : Finset Nat) (p : Nat) (x : Bytes) :
    (s.setData p x).cells own D = (s.cells own D).store p (pageBytes x) := by
  unfold cells Cells.store
  congr 1
  funext q
  show pageBytes (Function.update s.data p x q) = _
  by_cases hq : q = p
  · subst hq
    simp
  · simp [hq]

theorem pageBytes_copy (x y : Bytes) : pageBytes (memcpy x 0 y 0 pgsize) = pageBytes y := by
  funext i
  have hi : 0 ≤ (i : Nat) ∧ (i : Nat) < 0 + pgsize := ⟨Nat.zero_le _, by simp⟩
  simp [pageBytes, memcpy_in hi]

/-- The page `p` is taken, and the page `q` copied to it. -/
theorem cells_copied (s : PageMem) (D : Finset Nat) (p q : Nat) :
    (s.copied p q).cells own D = (s.cells own D).store p (pageBytes (s.data q)) := by
  have htaken : (s.take p).cells own D = s.cells own D := cells_congr (fun _ _ _ _ => rfl) rfl
  rw [copied, cells_setData, pageBytes_copy, htaken]

/-- A free page is in nobody's use. -/
theorem Trees.unused (h : Trees s D) (hp : p ∈ s.free) : (s.cells own D).Unused p := by
  intro k hk
  obtain ⟨hd, hn⟩ := mem_places.mp (mem_places_of_cell hk)
  rw [cells_cell hd hn] at hk
  exact (h.leafBusy k.1 hd k.2 p hn hk).1 hp

/-- A page that is referenced once is mapped at one place. -/
theorem Sound.sole (h : Sound s D L) (hd : d ∈ D) (hn : n < userPages) (hmaps : s.maps d n = some p) (href : s.ref p ≤ 1) :
    ∀ k, (s.cells own D).cell k = some p → k = (d, n) := by
  intro k hk
  have hkmem := mem_places_of_cell hk
  have hmem : (d, n) ∈ places D := mem_places.mpr ⟨hd, hn⟩
  obtain ⟨hk₁, hk₂⟩ := mem_places.mp hkmem
  rw [cells_cell hk₁ hk₂] at hk
  have hcount : s.count D p ≤ 1 := by
    rw [h.ref_mapped hd hn hmaps] at href
    omega
  have hcard := Finset.card_le_one.mp hcount
  apply hcard
  · simpa [hkmem] using hk
  · simpa [hmem] using hmaps

/-! ## The functions of `pmm.c` -/

theorem Deepened.cells (h : Deepened D d n s s') : s'.cells own D = s.cells own D := cells_congr h.leaf h.data

theorem Remapped.cells (h : Remapped D L d n e s s') (hd : d ∈ D) (hn : n < userPages) :
    s'.cells own D = (s.cells own D).put (d, n) (target e) (own e) := cells_put hd hn h.leaf h.data

theorem Inserted.cells (h : Inserted D L d n (pteCreate page perm) s s') (hd : d ∈ D) (hn : n < userPages) :
    s'.cells own D = (s.cells own D).put (d, n) (some page) (own (pteCreate page perm)) := by
  obtain ⟨s₁, hg, hr⟩ := h
  rw [hr.cells hd hn, hg.cells]
  rfl

/-- **`pgdir_alloc_page`** maps a page that nobody has used, or leaves everything as it was. -/
theorem pgdirAllocPage_cells (h : Sound s D L) (hd : d ∈ D) (hla : la < userTop) (own : Pte → Bool) (perm : Perm) :
    (pgdirAllocPage d la perm s).Meets
      (fun page s' => match page with
        | none   => s'.cells own D = s.cells own D
        | some p => (s.cells own D).Unused p ∧
          s'.cells own D = (s.cells own D).put (d, la / pgsize) (some p) (own (pteCreate p perm)))
      (fun _ _ => False) fun _ => False := by
  rcases pgdirAllocPage_spec h hd hla perm with hrun | ⟨p, s₁, hp, hg, -, hrun⟩ | ⟨p, s', hp, hins, hrun⟩
  · rw [hrun]
    rfl
  · have hsame : s₁.cells own D = s.cells own D := hg.cells
    rw [hrun]
    exact hsame
  · rw [hrun]
    exact ⟨h.unused hp, hins.cells hd (page_lt hla)⟩

end PageMem

open PageMem

variable {own : Pte → Bool} {L : Nat → Prop} {n : Nat} {v : Vma}

/-! ## The first loop of `exit_mmap` -/

/-- **The pages in `R` of the directory `d` are gone.** -/
structure Cleared (own : Pte → Bool) (D : Finset Nat) (L : Nat → Prop) (d : Nat) (R : Nat → Prop) (mem mem' : PageMem) : Prop where
  sound : Sound mem' D L
  exclusive : (mem.cells own D).Exclusive → (mem'.cells own D).Exclusive
  gone : ∀ n, R n → (mem'.cells own D).view (d, n) = none
  kept : ∀ k : Nat × Nat, ¬ (k.1 = d ∧ R k.2) → (mem'.cells own D).view k = (mem.cells own D).view k

namespace Cleared

variable {mem mem' mem₁ mem₂ : PageMem} {D : Finset Nat} {d la start stop : Nat} {R R' : Nat → Prop}

theorem refl (h : Sound mem D L) (hR : ∀ n, R n → (mem.cells own D).view (d, n) = none) : Cleared own D L d R mem mem :=
  ⟨h, id, hR, fun _ _ => rfl⟩

theorem trans (h : Cleared own D L d R mem mem₁) (h' : Cleared own D L d R' mem₁ mem₂) :
    Cleared own D L d (fun n => R n ∨ R' n) mem mem₂ where
  sound := h'.sound
  exclusive hx := h'.exclusive (h.exclusive hx)
  gone := by
    intro n hn
    by_cases hR' : R' n
    · exact h'.gone n hR'
    · rw [h'.kept (d, n) fun hcon => hR' hcon.2]
      exact h.gone n (hn.resolve_right hR')
  kept := by
    intro k hno
    rw [h'.kept k fun hcon => hno ⟨hcon.1, Or.inr hcon.2⟩, h.kept k fun hcon => hno ⟨hcon.1, Or.inl hcon.2⟩]

/-- Pages that are not mapped anyway make no difference. -/
theorem mono (h : Cleared own D L d R mem mem') (hsub : ∀ n, R n → R' n)
    (hnew : ∀ n, R' n → ¬ R n → (mem.cells own D).view (d, n) = none) : Cleared own D L d R' mem mem' where
  sound := h.sound
  exclusive := h.exclusive
  gone := by
    intro n hn
    by_cases hR : R n
    · exact h.gone n hR
    · rw [h.kept (d, n) fun hcon => hR hcon.2]
      exact hnew n hn hR
  kept k hno := h.kept k fun hcon => hno ⟨hcon.1, hsub _ hcon.2⟩

/-- One entry is removed. -/
theorem one (hd : d ∈ D) (hn : n < userPages) (h : Remapped D L d n .zero mem mem') : Cleared own D L d (fun i => i = n) mem mem' := by
  have hcells : mem'.cells own D = (mem.cells own D).put (d, n) none (own .zero) := h.cells hd hn
  refine ⟨h.sound, fun hx => ?_, ?_, ?_⟩
  · rw [hcells]
    exact hx.put_none _ _
  · rintro i rfl
    rw [hcells, Cells.view_put, Function.update_self]
    rfl
  · intro k hk
    rw [hcells, Cells.view_put, Function.update_of_ne]
    rintro rfl
    exact hk ⟨rfl, rfl⟩

end Cleared

section Unmap

variable {mem mem' : PageMem} {D : Finset Nat} {d la start stop : Nat}

/-- The page that a round is about. -/
theorem page_of_round (hal : la % pgsize = 0) (hle : la ≤ n * pgsize) (hlt : n * pgsize < la + pgsize) : n = la / pgsize := by
  have hal' : la % 2 ^ 12 = 0 := hal
  have hle' : la ≤ n * 2 ^ 12 := hle
  have hlt' : n * 2 ^ 12 < la + 2 ^ 12 := hlt
  show n = la / 2 ^ 12
  omega

/-- Pages without a page table are not seen. -/
theorem view_skipped (hnone : mem.tab d (ptSlot (la / pgsize)) = none) (hle : la / pgsize ≤ n) (hlt : n * pgsize < nextTable la) :
    (mem.cells own D).view (d, n) = none := by
  apply view_of_not_v
  rw [leaf_of_none ((ptSlot_skipped hle hlt).symm ▸ hnone)]
  exact Bool.false_ne_true

theorem page_lt_nextTable (hal : la % pgsize = 0) : la / pgsize * pgsize < nextTable la := by
  calc la / pgsize * pgsize ≤ la := Nat.div_mul_le_self la pgsize
    _ < la + pgsize := Nat.lt_add_of_pos_right (by decide)
    _ ≤ nextTable la := le_nextTable hal

/-- **A round of `unmap_range`** gets at least one page further, past pages that are not mapped. -/
theorem unmapRound_cleared (own : Pte → Bool) (h : Sound mem D L) (hd : d ∈ D) (hla : la < userTop) (hal : la % pgsize = 0) :
    (unmapRound d la mem).Meets (fun next mem' => la + pgsize ≤ next ∧ next % pgsize = 0 ∧
      Cleared own D L d (fun n => n = la / pgsize) mem mem' ∧
      ∀ n, la ≤ n * pgsize → n * pgsize < next → (mem'.cells own D).view (d, n) = none) (fun _ _ => False) fun _ => False := by
  have hstep : (la + pgsize) % pgsize = 0 := by rw [Nat.add_mod_right, hal]
  rcases unmapRound_spec h hd hla with ⟨hnone, hrun⟩ | ⟨hv, hrun⟩ | ⟨mem', hrun, hr⟩
  · rw [hrun]
    refine ⟨le_nextTable hal, nextTable_aligned la, .refl h ?_, fun n hle hlt => view_skipped hnone (Nat.div_le_of_le_mul ?_) hlt⟩
    · rintro n rfl
      exact view_skipped hnone (Nat.le_refl _) (page_lt_nextTable hal)
    · rw [Nat.mul_comm]
      exact hle
  · rw [hrun]
    have hnone : (mem.cells own D).view (d, la / pgsize) = none := view_of_not_v hv
    refine ⟨Nat.le_refl _, hstep, .refl h ?_, fun n hle hlt => ?_⟩
    · rintro n rfl
      exact hnone
    · rw [page_of_round hal hle hlt]
      exact hnone
  · rw [hrun]
    have hone : Cleared own D L d (fun n => n = la / pgsize) mem mem' := .one hd (page_lt hla) hr
    exact ⟨Nat.le_refl _, hstep, hone, fun n hle hlt => hone.gone n (page_of_round hal hle hlt)⟩

/-- **`unmap_range`.** -/
theorem unmapRange_cleared (own : Pte → Bool) (h : Sound mem D L) (hd : d ∈ D) :
    (unmapRange d start stop mem).Meets (fun _ mem' => Cleared own D L d (InRange start stop) mem mem') (fun _ _ => False)
      fun _ => True := by
  refine ((checkRange_meets mem start stop).imp (fun _ _ h => h) (fun _ _ h => h) fun _ _ => trivial).bind ?_
  rintro _ mem₀ ⟨heq, hal, -, -, hlt, htop⟩
  obtain rfl : mem = mem₀ := heq.symm
  -- the invariant of the loop: the pages below the cursor are gone
  have hloop := @rangeLoop_meets stop (unmapRound d)
    (fun la mem' => start ≤ la ∧ la % pgsize = 0 ∧ Cleared own D L d (fun n => InRange start stop n ∧ n * pgsize < la) mem mem')
    (fun _ _ => False) (fun _ => True) ?_ (rangeFuel start stop) start mem (Nat.lt_succ_self _) hlt
    ⟨Nat.le_refl _, hal, .refl h fun n hn => absurd hn.1.1 (Nat.not_le.mpr hn.2)⟩
  · refine hloop.imp ?_ (fun _ _ h => h) fun _ h => h
    rintro _ mem' ⟨next, hnext, -, -, hcleared⟩
    apply hcleared.mono
    · exact fun n hn => hn.1
    · exact fun n hn hno => absurd ⟨hn, Nat.lt_of_lt_of_le hn.2 hnext⟩ hno
  · rintro la mem₁ hla ⟨hlo, hal₁, hcleared⟩
    refine (unmapRound_cleared own hcleared.sound hd (Nat.lt_of_lt_of_le hla htop) hal₁).imp ?_ (fun _ _ h => h) fun _ h => h.elim
    rintro next mem₂ ⟨hnext, hal₂, hround, hnone⟩
    have hboth := hcleared.trans hround
    refine ⟨hnext, by omega, hal₂, hboth.mono ?_ ?_⟩
    · rintro n (⟨hin, hbelow⟩ | rfl)
      · exact ⟨hin, by omega⟩
      · rw [InRange, Nat.div_mul_cancel (Nat.dvd_of_mod_eq_zero hal₁)]
        exact ⟨⟨hlo, hla⟩, Nat.lt_of_lt_of_le (Nat.lt_add_of_pos_right (by decide)) hnext⟩
    · rintro n ⟨hin, hbelow⟩ hno
      rw [← hboth.kept (d, n) fun hcon => hno hcon.2]
      apply hnone n ?_ hbelow
      by_contra hlow
      exact hno (Or.inl ⟨hin, Nat.not_le.mp hlow⟩)

/-- **The loop.** -/
theorem unmapVmas_cleared (own : Pte → Bool) (hd : d ∈ D) (vs : List Vma) : ∀ {mem : PageMem}, Sound mem D L →
    (unmapVmas d vs mem).Meets (fun _ mem' => Cleared own D L d (fun n => ∃ v ∈ vs, v.Has n) mem mem') (fun _ _ => False)
      fun _ => True := by
  induction vs with
  | nil =>
    intro mem h
    refine .refl h fun n hn => ?_
    simp at hn
  | cons v vs ih =>
    intro mem h
    rw [unmapVmas]
    refine (unmapRange_cleared own h hd).bind ?_
    intro _ mem₁ h₁
    refine (ih h₁.sound).imp ?_ (fun _ _ h => h) fun _ h => h
    intro _ mem₂ h₂
    apply (h₁.trans h₂).mono
    · rintro n (hn | ⟨w, hw, hn⟩)
      · exact ⟨v, List.mem_cons_self, hn⟩
      · exact ⟨w, List.mem_cons_of_mem v hw, hn⟩
    · rintro n ⟨w, hw, hn⟩ hno
      exfalso
      rcases List.mem_cons.mp hw with rfl | hw
      · exact hno (Or.inl hn)
      · exact hno (Or.inr ⟨w, hw, hn⟩)

end Unmap

/-! ## The second loop -/

/-- Entries are cleared, and pages given back. -/
structure GivesBack (mem mem' : PageMem) : Prop where
  table : ∀ t i, mem'.table t i = mem.table t i ∨ mem'.table t i = .zero
  data : mem'.data = mem.data
  free : ∀ p ∈ mem.free, p ∈ mem'.free
  ref : ∀ p, mem'.ref p = mem.ref p ∧ (p ∈ mem'.free → p ∈ mem.free) ∨ p ∈ mem'.free ∧ mem'.ref p = 0

namespace GivesBack

instance : Std.Refl GivesBack := ⟨fun _ => ⟨fun _ _ => Or.inl rfl, rfl, fun _ hp => hp, fun _ => Or.inl ⟨rfl, id⟩⟩⟩

instance : IsTrans PageMem GivesBack where
  trans mem mem₁ mem₂ h h' := by
    refine ⟨fun t i => ?_, h'.data.trans h.data, fun p hp => h'.free p (h.free p hp), fun p => ?_⟩
    · rcases h'.table t i with hsame | hzero
      · rw [hsame]
        exact h.table t i
      · exact Or.inr hzero
    · rcases h'.ref p with ⟨hsame, hfree⟩ | hzero
      · rw [hsame]
        rcases h.ref p with ⟨hsame₁, hfree₁⟩ | ⟨hfree₁, hzero₁⟩
        · exact Or.inl ⟨hsame₁, fun hp => hfree₁ (hfree hp)⟩
        · exact Or.inr ⟨h'.free p hfree₁, hzero₁⟩
      · exact Or.inr hzero

theorem freePage (p : Nat) : Keeps GivesBack (freePage p) := by
  refine .of_modify fun mem => ⟨fun _ _ => Or.inl rfl, rfl, fun q hq => Finset.mem_insert_of_mem hq, fun q => ?_⟩
  by_cases hq : q = p
  · right
    rw [hq]
    exact ⟨Finset.mem_insert_self p _, Function.update_self ..⟩
  · left
    refine ⟨Function.update_of_ne hq _ _, fun hmem => ?_⟩
    exact (Finset.mem_insert.mp hmem).resolve_left hq

theorem setPte_zero (t i : Nat) : Keeps GivesBack (Proc.modify fun s => s.setPte t i .zero : MemM Unit) := by
  refine .of_modify fun mem => ⟨fun t' j => ?_, rfl, fun _ hp => hp, fun _ => Or.inl ⟨rfl, id⟩⟩
  show Function.update mem.table t (Function.update (mem.table t) i .zero) t' j = _ ∨ _
  by_cases ht : t' = t
  · subst ht
    rw [Function.update_self]
    by_cases hj : j = i
    · subst hj
      right
      show Function.update mem.table t' (Function.update (mem.table t') j .zero) t' j = _
      simp
    · exact Or.inl (Function.update_of_ne hj _ _)
  · left
    rw [Function.update_of_ne ht]

theorem exitPd0 (pd0 stop d1start : Nat) (fuel : Nat) :
    ∀ d0start flag, Keeps GivesBack (exitPd0 pd0 stop d1start fuel d0start flag) := by
  induction fuel with
  | zero => exact fun _ _ => .of_stop _
  | succ fuel ih =>
    intro d0start flag
    refine Keeps.of_get.bind fun mem => ?_
    dsimp only
    generalize d0start + ptsize = next
    generalize d1start + pdsize = last
    -- what comes after the table has been looked at
    have hnext : ∀ flag : Bool, Keeps GivesBack (if next ≠ 0 ∧ next < last ∧ next < stop
        then Ucore.exitPd0 pd0 stop d1start fuel next flag else pure (flag, next) : MemM (Bool × Nat)) := by
      intro flag
      split
      · exact ih _ _
      · exact .of_pure _
    split
    · split
      · exact (freePage _).bind fun _ => (setPte_zero _ _).bind fun _ => hnext _
      · exact hnext _
    · exact hnext _

theorem exitPass (pgdir stop d1start d0start : Nat) : Keeps GivesBack (exitPass pgdir stop d1start d0start) := by
  refine Keeps.of_get.bind fun mem => ?_
  dsimp only
  split
  · refine (exitPd0 _ _ _ _ _ _).bind fun res => ?_
    split
    · exact (freePage _).bind fun _ => setPte_zero _ _
    · exact .of_pure _
  · exact .of_pure _

theorem exitPd1 (pgdir stop : Nat) (fuel : Nat) : ∀ d1start d0start, Keeps GivesBack (exitPd1 pgdir stop fuel d1start d0start) := by
  induction fuel with
  | zero => exact fun _ _ => .of_stop _
  | succ fuel ih =>
    intro d1start d0start
    refine (exitPass _ _ _ _).bind fun _ => ?_
    dsimp only
    split
    · exact ih _ _
    · exact .of_pure _

/-- **`exit_range` takes nothing, and writes only zeros.** -/
theorem exitRange (pgdir start stop : Nat) : Keeps GivesBack (exitRange pgdir start stop) :=
  ((Keeps.of_check _ _).bind fun _ => .of_check _ _).bind fun _ => exitPd1 _ _ _ _ _

theorem exitVmas (pgdir : Nat) (vs : List Vma) : Keeps GivesBack (exitVmas pgdir vs) := by
  induction vs with
  | nil => exact .of_pure _
  | cons v vs ih => exact (exitRange _ _ _).bind fun _ => ih

end GivesBack

/-! ## Without the directory -/

/-- The pages that nobody gives back: those lost before, and the tables of `d` that `exit_range` does not find. -/
def Leaked (L : Nat → Prop) (d : Nat) (mem mem' : PageMem) (p : Nat) : Prop :=
  p ∉ (mem'.give d).free ∧ (L p ∨ ∃ t : TSlot, t.User ∧ mem.tab d t = some p)

theorem isTable_dir {mem : PageMem} {D : Finset Nat} {d : Nat} (hd : d ∈ D) : mem.IsTable D d := ⟨d, hd, .root, trivial, rfl⟩

section GoneDir

variable {mem mem' : PageMem} {D : Finset Nat} {d p : Nat} {X G : TSlot → Prop} (hex : Exited D d X G mem mem')

include hex

/-- The directory maps nothing, so it does not count. -/
theorem count_gone (hd : d ∈ D) (hb : mem.Blank d) (p : Nat) : (mem'.give d).count (D.erase d) p = mem.count D p := by
  have hsame : mem'.count D p = mem.count D p := count_congr hex.maps p
  rw [← hsame]
  symm
  apply tally_subset (Finset.product_subset_product_left (Finset.erase_subset d D))
  intro k hk hnot
  obtain ⟨hk₁, hk₂⟩ := mem_places.mp hk
  have heq : k.1 = d := by
    by_contra hne
    exact hnot (mem_places.mpr ⟨Finset.mem_erase.mpr ⟨hne, hk₁⟩, hk₂⟩)
  rw [heq, hex.maps d hd k.2 hk₂, hb k.2 hk₂]
  simp

/-- The tables of the other directories stay. -/
theorem isTable_gone : (mem'.give d).IsTable (D.erase d) p ↔ ∃ d' ∈ D, d' ≠ d ∧ ∃ t : TSlot, t.User ∧ mem.tab d' t = some p := by
  have htab : (mem'.give d).tab = mem'.tab := tab_congr rfl
  constructor
  · rintro ⟨d', hd', t, ht, htp⟩
    obtain ⟨hne, hin⟩ := Finset.mem_erase.mp hd'
    rw [htab] at htp
    exact ⟨d', hin, hne, t, ht, ((hex.tab d' hin t p ht).mp htp).1⟩
  · rintro ⟨d', hin, hne, t, ht, htp⟩
    refine ⟨d', Finset.mem_erase.mpr ⟨hne, hin⟩, t, ht, ?_⟩
    rw [htab]
    exact (hex.tab d' hin t p ht).mpr ⟨htp, fun hcon => hne hcon.1⟩

theorem trees_gone (h : Sound mem D L) (hd : d ∈ D) : Trees (mem'.give d) (D.erase d) where
  inj := by
    intro d₁ hd₁ d₂ hd₂ t u p ht hu h₁ h₂
    have htab : (mem'.give d).tab = mem'.tab := tab_congr rfl
    rw [htab] at h₁ h₂
    exact hex.trees.inj d₁ (Finset.mem_of_mem_erase hd₁) d₂ (Finset.mem_of_mem_erase hd₂) t u p ht hu h₁ h₂
  busy := by
    intro p hp hfree
    obtain ⟨d', hin, hne, t, ht, htp⟩ := (isTable_gone hex).mp hp
    rcases Finset.mem_insert.mp hfree with heq | hold
    · rw [heq] at htp
      exact hne (h.inj d' hin d hd t .root d ht trivial htp rfl).1
    · apply hex.trees.busy p ?_ hold
      exact ⟨d', hin, t, ht, (hex.tab d' hin t p ht).mpr ⟨htp, fun hcon => hne hcon.1⟩⟩
  leafBusy := by
    intro d' hd' n p hn hmaps
    have hin := Finset.mem_of_mem_erase hd'
    have hsame : (mem'.give d).maps = mem'.maps := maps_congr rfl
    rw [hsame] at hmaps
    obtain ⟨hfree, htable⟩ := hex.trees.leafBusy d' hin n p hn hmaps
    constructor
    · intro hmem
      rcases Finset.mem_insert.mp hmem with heq | hold
      · exact htable (heq ▸ isTable_dir hd)
      · exact hfree hold
    · intro htab
      obtain ⟨d₂, hin₂, hne₂, t, ht, htp⟩ := (isTable_gone hex).mp htab
      exact htable ⟨d₂, hin₂, t, ht, (hex.tab d₂ hin₂ t p ht).mpr ⟨htp, fun hcon => hne₂ hcon.1⟩⟩

/-- **The memory without the directory.** -/
theorem sound_gone (h : Sound mem D L) (hd : d ∈ D) (hb : mem.Blank d) (hgb : GivesBack mem mem') :
    Sound (mem'.give d) (D.erase d) (Leaked L d mem mem') where
  toTrees := trees_gone hex h hd
  ref := by
    intro p htable hleaked
    rw [count_gone hex hd hb]
    by_cases hp : p = d
    · rw [hp, h.count_isTable (isTable_dir hd)]
      exact Function.update_self ..
    · have href : (mem'.give d).ref p = mem'.ref p := Function.update_of_ne hp _ _
      rw [href]
      rcases hgb.ref p with ⟨hsame, hfree⟩ | ⟨hfree, hzero⟩
      · rw [hsame]
        by_cases hin : p ∈ mem'.free
        · exact h.ref p (fun htab => h.busy p htab (hfree hin)) (h.not_lost (Or.inl (hfree hin)))
        · have hout : p ∉ (mem'.give d).free := fun hmem => (Finset.mem_insert.mp hmem).elim hp hin
          apply h.ref p
          · -- it would be a table that is in use, or one that has been lost
            rintro ⟨d', hin', t, ht, htp⟩
            by_cases hdir : d' = d
            · rw [hdir] at htp
              exact hleaked ⟨hout, Or.inr ⟨t, ht, htp⟩⟩
            · exact htable ((isTable_gone hex).mpr ⟨d', hin', hdir, t, ht, htp⟩)
          · exact fun hlost => hleaked ⟨hout, Or.inl hlost⟩
      · have hcount : mem'.count D p = mem.count D p := count_congr hex.maps p
        rw [hzero, ← hcount, hex.trees.count_free hfree]
        rfl
  lost := by
    rintro p ⟨hfree, hlost⟩
    rw [count_gone hex hd hb]
    refine ⟨hfree, ?_⟩
    rcases hlost with hold | ⟨t, ht, htp⟩
    · exact (h.lost p hold).2
    · exact h.count_isTable ⟨d, hd, t, ht, htp⟩

/-- A valid entry of another directory has not been written. -/
theorem leaf_gone (hgb : GivesBack mem mem') {d' n : Nat} (hin : d' ∈ D) (hn : n < userPages) (hv : (mem'.leaf d' n).v = true) :
    mem'.leaf d' n = mem.leaf d' n := by
  cases htab : mem'.tab d' (ptSlot n) with
  | none =>
    rw [leaf_of_none htab] at hv
    cases hv
  | some t =>
    have hold := ((hex.tab d' hin (ptSlot n) t (ptSlot_user hn)).mp htab).1
    rw [leaf_of_tab htab] at hv ⊢
    rw [leaf_of_tab hold]
    rcases hgb.table t (n % 512) with hsame | hzero
    · exact hsame
    · rw [hzero] at hv
      cases hv

/-- **What is seen of the other directories** stays. -/
theorem cells_gone (hgb : GivesBack mem mem') (own : Pte → Bool) :
    ((mem.cells own D).Exclusive → ((mem'.give d).cells own (D.erase d)).Exclusive) ∧
    ∀ d' ∈ D, d' ≠ d → ∀ n, n < userPages →
      ((mem'.give d).cells own (D.erase d)).view (d', n) = (mem.cells own D).view (d', n) := by
  have hmaps : (mem'.give d).maps = mem'.maps := maps_congr rfl
  have hleaf : (mem'.give d).leaf = mem'.leaf := leaf_congr rfl
  have hcell : ∀ d' ∈ D, d' ≠ d → ∀ n, n < userPages →
      ((mem'.give d).cells own (D.erase d)).cell (d', n) = (mem.cells own D).cell (d', n) := by
    intro d' hin hne n hn
    rw [cells_cell (Finset.mem_erase.mpr ⟨hne, hin⟩) hn, cells_cell hin hn, hmaps, hex.maps d' hin n hn]
  constructor
  · intro hx
    apply hx.share
    rintro ⟨d', n⟩
    by_cases hk : (d', n) ∈ places (D.erase d)
    · obtain ⟨hd', hn⟩ := mem_places.mp hk
      obtain ⟨hne, hin⟩ := Finset.mem_erase.mp hd'
      by_cases hv : (mem'.leaf d' n).v = true
      · right
        left
        refine ⟨hcell d' hin hne n hn, ?_⟩
        rw [cells_own hd' hn, cells_own hin hn, hleaf, leaf_gone hex hgb hin hn hv]
        exact id
      · left
        rw [cells_cell hd' hn, hmaps, maps, if_neg hv]
    · exact Or.inl (cells_out hk)
  · intro d' hin hne n hn
    apply Cells.view_congr (hcell d' hin hne n hn)
    intro q _
    show pageBytes (mem'.data q) = pageBytes (mem.data q)
    rw [hex.data]

end GoneDir

end Ucore
