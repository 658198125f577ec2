import Ucore.Tools.Correctness.MkRun

/-!
# `Tools.Correctness.Close` — the image that `close_sfs` leaves

`close_sfs` writes the free map, the superblock, and everything in the hash lists. These are different
blocks, so in the end each of them holds what was written (`Closed`), and the data blocks are left alone.
-/

namespace Ucore

namespace Mksfs

variable {m : Mksfs} {img : Nat → Bytes} {i k n : Nat}

def withImg (m : Mksfs) (img : Nat → Bytes) : Mksfs := { m with img := img }

theorem writeBlock_run {x : Bytes} {len b : Nat} (hlen : len ≤ 4096) (hb : b < m.ninos) :
    writeBlock x len b m = .ok () (m.withImg (Function.update m.img b (padBlock x len))) := by
  have hc : len ≤ sfsBlksize ∧ b < m.ninos := ⟨hlen, hb⟩
  unfold writeBlock
  rw [Proc.get_bind, Proc.check_bind_pos hc]
  rfl

/-! ## The free map -/

/-- The number of blocks of the free map. -/
def mapBlocks (m : Mksfs) : Nat := (m.ninos + 32767) / 32768

/-- Block `k` of the free map, as it is written. -/
def mapBlock (m : Mksfs) (k : Nat) : Bytes :=
  padBlock (bitmapGetdata (closeFreemapBlock m.ninos m.nextIno (32768 * k))) 4096

theorem closeFreemap_run (fuel : Nat) : ∀ (m : Mksfs) (k : Nat), 2 + m.mapBlocks ≤ m.ninos → k ≤ m.mapBlocks →
    m.mapBlocks < k + fuel → ∃ img, closeFreemap (2 + k) (32768 * k) fuel m = .ok () (m.withImg img) ∧
      (∀ j, k ≤ j → j < m.mapBlocks → img (2 + j) = m.mapBlock j) ∧
      ∀ b, ¬ (2 + k ≤ b ∧ b < 2 + m.mapBlocks) → img b = m.img b := by
  induction fuel with
  | zero =>
    intro m k _ hk hfuel
    omega
  | succ fuel ih =>
    intro m k hroom hk hfuel
    unfold closeFreemap
    rw [Proc.get_bind]
    have hmap : m.mapBlocks = (m.ninos + 32767) / 32768 := rfl
    by_cases hlt : 32768 * k < m.ninos
    · rw [if_pos hlt]
      have hwrite := @writeBlock_run m (bitmapGetdata (closeFreemapBlock m.ninos m.nextIno (32768 * k))) 4096 (2 + k)
        (Nat.le_refl _) (by omega)
      obtain ⟨img, hrun, hblocks, hother⟩ := ih (m.withImg (Function.update m.img (2 + k) (m.mapBlock k))) (k + 1) hroom
        (show k + 1 ≤ m.mapBlocks by omega) (show m.mapBlocks < k + 1 + fuel by omega)
      refine ⟨img, ?_, fun j hj hjlt => ?_, fun b hb => ?_⟩
      · rw [show sfsBlksize = 4096 from rfl, Proc.bind_ok hwrite]
        exact hrun
      · rcases Nat.eq_or_lt_of_le hj with rfl | hgt
        · rw [hother _ (by omega)]
          exact Function.update_self _ _ _
        · exact hblocks j hgt hjlt
      · rw [hother b (by rintro ⟨h1, h2⟩; exact hb ⟨by omega, h2⟩)]
        have hne : b ≠ 2 + k := by
          rintro rfl
          exact hb ⟨Nat.le_refl _, by omega⟩
        exact Function.update_of_ne hne _ _
    · rw [if_neg hlt]
      exact ⟨m.img, rfl, fun j hj hjlt => absurd hjlt (by omega), fun _ _ => rfl⟩

/-! ## The hash lists -/

theorem flushCacheBlocks_run (l : List Nat) : ∀ m : Mksfs, (∀ b ∈ l, b < m.ninos) →
    ∃ img, flushCacheBlocks l m = .ok () (m.withImg img) ∧ (∀ b ∈ l, img b = padBlock (m.cacheAt b) 4096) ∧
      ∀ b, b ∉ l → img b = m.img b := by
  induction l with
  | nil => exact fun m _ => ⟨m.img, rfl, fun b hb => absurd hb List.not_mem_nil, fun _ _ => rfl⟩
  | cons cb rest ih =>
    intro m hlt
    obtain ⟨img, hrun, hin, hout⟩ := ih (m.withImg (Function.update m.img cb (padBlock (m.cacheAt cb) 4096)))
      fun b hb => hlt b (List.mem_cons_of_mem _ hb)
    refine ⟨img, ?_, fun b hb => ?_, fun b hb => ?_⟩
    · unfold flushCacheBlocks
      rw [Proc.get_bind, show sfsBlksize = 4096 from rfl,
        Proc.bind_ok (writeBlock_run (Nat.le_refl _) (hlt cb List.mem_cons_self))]
      exact hrun
    · by_cases hr : b ∈ rest
      · exact hin b hr
      · obtain rfl := (List.mem_cons.mp hb).resolve_right hr
        rw [hout b hr]
        exact Function.update_self _ _ _
    · rw [List.mem_cons, not_or] at hb
      rw [hout b hb.2]
      exact Function.update_of_ne hb.1 _ _

/-- An inode, as it is written. -/
def nodeBlock (m : Mksfs) (f : Nat) : Bytes := padBlock ((m.inodeAt f).inode.store fun _ => 0) mkInodeSize

theorem flushCacheInodes_run (l : List Nat) : ∀ m : Mksfs, (∀ f ∈ l, f < m.ninos) →
    ∃ img, flushCacheInodes l m = .ok () (m.withImg img) ∧ (∀ f ∈ l, img f = m.nodeBlock f) ∧
      ∀ b, b ∉ l → img b = m.img b := by
  induction l with
  | nil => exact fun m _ => ⟨m.img, rfl, fun b hb => absurd hb List.not_mem_nil, fun _ _ => rfl⟩
  | cons ci rest ih =>
    intro m hlt
    have hsize : mkInodeSize ≤ 4096 := by decide
    obtain ⟨img, hrun, hin, hout⟩ := ih (m.withImg (Function.update m.img ci (m.nodeBlock ci)))
      fun b hb => hlt b (List.mem_cons_of_mem _ hb)
    refine ⟨img, ?_, fun b hb => ?_, fun b hb => ?_⟩
    · unfold flushCacheInodes
      rw [Proc.get_bind, Proc.bind_ok (writeBlock_run hsize (hlt ci List.mem_cons_self))]
      exact hrun
    · by_cases hr : b ∈ rest
      · exact hin b hr
      · obtain rfl := (List.mem_cons.mp hb).resolve_right hr
        rw [hout b hr]
        exact Function.update_self _ _ _
    · rw [List.mem_cons, not_or] at hb
      rw [hout b hb.2]
      exact Function.update_of_ne hb.1 _ _

/-- The hash lists from `i` on. -/
theorem flushLists_run (n : Nat) : ∀ (m : Mksfs) (i : Nat), (∀ k b, b ∈ m.blocks k ∨ b ∈ m.inodes k → b < m.ninos) →
    (∀ k l b, b ∈ m.blocks k → b ∉ m.inodes l) → ∃ img, flushLists i n m = .ok () (m.withImg img) ∧
      (∀ k b, i ≤ k → k < i + n → b ∈ m.blocks k → img b = padBlock (m.cacheAt b) 4096) ∧
      (∀ k f, i ≤ k → k < i + n → f ∈ m.inodes k → img f = m.nodeBlock f) ∧
      ∀ b, (∀ k, i ≤ k → k < i + n → b ∉ m.blocks k ∧ b ∉ m.inodes k) → img b = m.img b := by
  induction n with
  | zero => exact fun m i _ _ => ⟨m.img, rfl, fun k b h1 h2 => absurd h2 (by omega), fun k b h1 h2 => absurd h2 (by omega),
      fun _ _ => rfl⟩
  | succ n ih =>
    intro m i hlt hapart
    obtain ⟨img₁, hrun₁, hin₁, hout₁⟩ := flushCacheBlocks_run (m.blocks i) m fun b hb => hlt i b (Or.inl hb)
    obtain ⟨img₂, hrun₂, hin₂, hout₂⟩ := flushCacheInodes_run (m.inodes i) (m.withImg img₁)
      fun b hb => hlt i b (Or.inr hb)
    obtain ⟨img, hrun, hcache, hnode, hother⟩ := ih (m.withImg img₂) (i + 1) hlt hapart
    refine ⟨img, ?_, fun k b hk hkn hb => ?_, fun k f hk hkn hf => ?_, fun b hb => ?_⟩
    · unfold flushLists
      rw [Proc.get_bind, Proc.bind_ok hrun₁, Proc.get_bind]
      exact (Proc.bind_ok hrun₂).trans hrun
    · by_cases hlater : ∃ l, i + 1 ≤ l ∧ l < i + 1 + n ∧ b ∈ m.blocks l
      · obtain ⟨l, hl, hln, hbl⟩ := hlater
        exact hcache l b hl hln hbl
      · -- written in this round, and not again
        have hki : k = i := by
          by_contra hne
          exact hlater ⟨k, by omega, by omega, hb⟩
        subst hki
        rw [hother b fun l hl hln => ⟨fun hbl => hlater ⟨l, hl, hln, hbl⟩, hapart k l b hb⟩]
        exact (hout₂ b (hapart k k b hb)).trans (hin₁ b hb)
    · by_cases hlater : ∃ l, i + 1 ≤ l ∧ l < i + 1 + n ∧ f ∈ m.inodes l
      · obtain ⟨l, hl, hln, hfl⟩ := hlater
        exact hnode l f hl hln hfl
      · have hki : k = i := by
          by_contra hne
          exact hlater ⟨k, by omega, by omega, hf⟩
        subst hki
        rw [hother f fun l hl hln => ⟨fun hbl => hapart l k f hbl hf, fun hfl => hlater ⟨l, hl, hln, hfl⟩⟩]
        exact hin₂ f hf
    · have hi := hb i (Nat.le_refl _) (by omega)
      rw [hother b fun l hl hln => hb l (by omega) (by omega)]
      exact (hout₂ b hi.2).trans (hout₁ b hi.1)

/-! ## The whole image -/

/-- The image of a finished walk. -/
structure Closed (m : Mksfs) (img : Nat → Bytes) : Prop where
  super : img 0 = padBlock (m.super.store fun _ => 0) 44
  map : ∀ k, k < m.mapBlocks → img (2 + k) = m.mapBlock k
  node : ∀ f, m.IsInode f → img f = m.nodeBlock f
  index : ∀ f s, s.IsIndex → m.val f s ≠ 0 → img (m.val f s) = padBlock (m.cacheAt (m.val f s)) 4096
  data : ∀ f k, k < (m.inodeAt f).nblks → img (m.val f (.data k)) = m.img (m.val f (.data k))

theorem Owned.listed_range {b : Nat} (h : m.Owned) (hb : b ∈ m.blocks k) : m.first ≤ b ∧ b < m.nextIno := by
  obtain ⟨-, f, s, -, rfl, hz⟩ := h.cached k b hb
  exact h.range f s hz

/-- **Closing.** -/
theorem closeSfs_closed (h : m.Inv) : ∃ img, closeSfs m = .ok () (m.withImg img) ∧ Closed m img := by
  have ho := h.owned
  have hle := ho.super.first_le
  have hsum := ho.super.unused
  have hfirst : m.first = 2 + m.mapBlocks := rfl
  obtain ⟨img₁, hrun₁, hmap₁, hout₁⟩ := closeFreemap_run (m.ninos + 1) m 0 (by omega) (Nat.zero_le _) (by omega)
  have hsuper := @writeBlock_run (m.withImg img₁) (m.super.store fun _ => 0) 44 0 (by decide)
    (show 0 < m.ninos by omega)
  have hrange : ∀ k b, b ∈ m.blocks k ∨ b ∈ m.inodes k → b = 1 ∨ m.first ≤ b ∧ b < m.nextIno := by
    rintro k b (hb | hb)
    · exact Or.inr (ho.listed_range hb)
    · exact ho.inode_range b ⟨k, hb⟩
  have hapart : ∀ k l b, b ∈ m.blocks k → b ∉ m.inodes l := by
    intro k l b hb hbl
    obtain ⟨-, f, s, -, hv, -⟩ := ho.cached k b hb
    exact ho.inode_apart b f s ⟨l, hbl⟩ hv
  obtain ⟨img, hrun, hcache, hnode, hother⟩ := flushLists_run 1024
    (m.withImg (Function.update img₁ 0 (padBlock (m.super.store fun _ => 0) 44))) 0
    (fun k b hb => by
      have hb' : b = 1 ∨ m.first ≤ b ∧ b < m.nextIno := hrange k b hb
      show b < m.ninos
      omega) hapart
  -- the blocks that the lists leave alone
  have hkeep : ∀ b, (∀ k, b ∉ m.blocks k) → ¬ m.IsInode b → b ≠ 0 → img b = img₁ b := by
    intro b hb hf h0
    rw [hother b fun k _ _ => ⟨hb k, fun hk => hf ⟨k, hk⟩⟩]
    exact Function.update_of_ne h0 _ _
  have hlow : ∀ b, b ≠ 1 → b < m.first → (∀ k, b ∉ m.blocks k) ∧ ¬ m.IsInode b := by
    intro b h1 hlt
    refine ⟨fun k hb => ?_, ?_⟩
    · have := (ho.listed_range hb).1
      omega
    · rintro ⟨k, hb⟩
      have := hrange k b (Or.inr hb)
      omega
  refine ⟨img, ?_, ?_, fun k hk => ?_, ?_, fun f s hs hz => ?_, fun f k hk => ?_⟩
  · unfold closeSfs
    rw [Proc.get_bind]
    refine (Proc.bind_ok hrun₁).trans ?_
    rw [Proc.get_bind]
    exact (Proc.bind_ok hsuper).trans hrun
  · have h0 := hlow 0 (by decide) (by omega)
    rw [hother 0 fun k _ _ => ⟨h0.1 k, fun hk => h0.2 ⟨k, hk⟩⟩]
    exact Function.update_self 0 (padBlock (m.super.store fun _ => 0) 44) img₁
  · have hk' := hlow (2 + k) (by omega) (by omega)
    rw [hkeep _ hk'.1 hk'.2 (by omega)]
    exact hmap₁ k (Nat.zero_le _) hk
  · rintro f ⟨k, hk⟩
    exact hnode k f (Nat.zero_le _) (by have := ho.inode_list k f hk; omega) hk
  · obtain ⟨k, hk⟩ := ho.listed f s hs hz
    exact hcache k _ (Nat.zero_le _) (by have := (ho.cached k _ hk).1; omega) hk
  · -- a data block is neither an index block nor an inode
    have hz := ((h.counts f).dense k).mpr hk
    have hr := ho.range f _ hz
    have hcached : ∀ l, m.val f (.data k) ∉ m.blocks l := by
      intro l hb
      obtain ⟨-, g, s, hs, hv, -⟩ := ho.cached l _ hb
      obtain ⟨-, rfl⟩ := ho.inj f (.data k) g s hv.symm hz
      exact MkSlot.not_isIndex_data k hs
    rw [hkeep _ hcached (fun hf => ho.inode_apart _ f _ hf rfl) hz]
    exact hout₁ _ (by omega)

end Mksfs

end Ucore
