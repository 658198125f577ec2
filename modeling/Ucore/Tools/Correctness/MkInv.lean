import Ucore.Tools.Mksfs

/-!
# `Tools.Correctness.MkInv` — which block belongs to what while an image is made

A file names its blocks through slots (`MkSlot`): the direct ones, the two index pointers, and the entries
of the index blocks, which are still in memory. `Mksfs.Inv` says that every number handed out so far has
at most one use, that the index blocks are exactly the blocks in the hash lists, and that the data blocks
of a file fill its first slots.
-/

namespace Ucore

/-- Where a file keeps a block number. -/
inductive MkSlot where
  | direct (i : Fin 12)
  | indirect
  | entry (j : Nat)
  | dbIndirect
  | dbEntry (a : Nat)
  | dbLeaf (a j : Nat)
deriving DecidableEq

namespace MkSlot

/-- The block named is an index block. -/
def IsIndex : MkSlot → Prop
  | .direct _   => False
  | .indirect   => True
  | .entry _    => False
  | .dbIndirect => True
  | .dbEntry _  => True
  | .dbLeaf _ _ => False

/-- The slots that lead to a slot. -/
def path : MkSlot → List MkSlot
  | .direct _   => []
  | .indirect   => []
  | .entry _    => [.indirect]
  | .dbIndirect => []
  | .dbEntry _  => [.dbIndirect]
  | .dbLeaf a _ => [.dbIndirect, .dbEntry a]

theorem isIndex_of_path {p s : MkSlot} (h : p ∈ s.path) : p.IsIndex := by
  cases s with
  | direct i => exact absurd h List.not_mem_nil
  | indirect => exact absurd h List.not_mem_nil
  | entry j =>
    rw [List.mem_singleton.mp h]
    trivial
  | dbIndirect => exact absurd h List.not_mem_nil
  | dbEntry a =>
    rw [List.mem_singleton.mp h]
    trivial
  | dbLeaf a j =>
    rcases List.mem_cons.mp h with rfl | h
    · trivial
    · rw [List.mem_singleton.mp h]
      trivial

/-- The slot of the `k`-th data block of a file. -/
def data (k : Nat) : MkSlot :=
  if h : k < 12 then .direct ⟨k, h⟩
  else if k < 1036 then .entry (k - 12)
  else .dbLeaf ((k - 1036) / 1024) ((k - 1036) % 1024)

theorem data_direct {k : Nat} (h : k < 12) : data k = .direct ⟨k, h⟩ := dif_pos h

theorem data_entry {k : Nat} (h : ¬ k < 12) (hk : k < 1036) : data k = .entry (k - 12) := by
  unfold data
  rw [dif_neg h, if_pos hk]

theorem data_dbLeaf {k : Nat} (h : ¬ k < 1036) : data k = .dbLeaf ((k - 1036) / 1024) ((k - 1036) % 1024) := by
  unfold data
  rw [dif_neg (by omega), if_neg h]

theorem data_inj {k l : Nat} (h : data k = data l) : k = l := by
  unfold data at h
  split at h <;> split at h <;> (try split at h) <;> (try split at h) <;> simp at h <;> omega

theorem not_isIndex_data (k : Nat) : ¬ (data k).IsIndex := by
  unfold data
  split
  · exact id
  · split <;> exact id

end MkSlot

namespace Mksfs

/-- The number of the first block after the free map. -/
def first (m : Mksfs) : Nat := 2 + (m.ninos + 32767) / 32768

/-- There is a `cache_inode` for this number. -/
def IsInode (m : Mksfs) (f : Nat) : Prop := ∃ k, f ∈ m.inodes k

/-- Entry `j` of the index block `p`, if there is one. -/
def child (m : Mksfs) (p j : Nat) : Nat := if p = 0 then 0 else getLe (m.cacheAt p) (4 * j) 4

/-- The block number in a slot of an inode. -/
def slotOf (m : Mksfs) (inode : MkInode) : MkSlot → Nat
  | .direct i   => inode.direct i
  | .indirect   => inode.indirect
  | .entry j    => m.child inode.indirect j
  | .dbIndirect => inode.dbIndirect
  | .dbEntry a  => m.child inode.dbIndirect a
  | .dbLeaf a j => m.child (m.child inode.dbIndirect a) j

/-- The block number in a slot of the file `f`. -/
def val (m : Mksfs) (f : Nat) (s : MkSlot) : Nat := m.slotOf (m.inodeAt f).inode s

/-- What the image holds of the file so far, block by block. -/
def content (m : Mksfs) (f : Nat) : List Bytes :=
  (List.range (m.inodeAt f).nblks).map fun k => m.img (m.val f (.data k))

/-- The superblock that belongs to the numbers handed out. -/
structure SuperOk (m : Mksfs) : Prop where
  magic : m.super.magic = sfsMagic
  blocks : m.super.blocks = m.ninos
  unused : m.super.unusedBlocks + m.nextIno = m.ninos
  first_le : m.first ≤ m.nextIno
  ninos_le : m.ninos ≤ 2 ^ 19

/-- The numbers handed out: each has at most one use, and the index blocks are those in the hash lists. -/
structure Owned (m : Mksfs) : Prop where
  super : m.SuperOk
  range : ∀ f s, m.val f s ≠ 0 → m.first ≤ m.val f s ∧ m.val f s < m.nextIno
  inj : ∀ f s g t, m.val f s = m.val g t → m.val f s ≠ 0 → f = g ∧ s = t
  inode_range : ∀ f, m.IsInode f → f = 1 ∨ m.first ≤ f ∧ f < m.nextIno
  inode_apart : ∀ f g s, m.IsInode f → m.val g s ≠ f
  inode_list : ∀ k f, f ∈ m.inodes k → k < 1024
  cached : ∀ k b, b ∈ m.blocks k → k < 1024 ∧ ∃ f s, s.IsIndex ∧ m.val f s = b ∧ b ≠ 0
  listed : ∀ f s, s.IsIndex → m.val f s ≠ 0 → ∃ k, m.val f s ∈ m.blocks k

/-- What an inode counts. -/
structure Counts (m : Mksfs) (f : Nat) : Prop where
  dense : ∀ k, m.val f (.data k) ≠ 0 ↔ k < (m.inodeAt f).nblks
  nblks_le : (m.inodeAt f).nblks ≤ 32768
  blocks : (m.inodeAt f).inode.blocks = (m.inodeAt f).nblks
  size : (m.inodeAt f).inode.size ≤ 4096 * (m.inodeAt f).nblks
  type : (m.inodeAt f).inode.type < 2 ^ 16
  nlinks : (m.inodeAt f).inode.nlinks < 2 ^ 16

/-- **The invariant** of `mksfs`. -/
structure Inv (m : Mksfs) : Prop where
  owned : m.Owned
  counts : ∀ f, m.Counts f
  outside : ∀ f, ¬ m.IsInode f → (m.inodeAt f).nblks = 0 ∧ ∀ s, m.val f s = 0
  root : m.IsInode sfsBlknRoot

/-- A number that was handed out and is not used yet. -/
structure Unused (m : Mksfs) (b : Nat) : Prop where
  first_le : m.first ≤ b
  lt : b < m.nextIno
  val : ∀ f s, m.val f s ≠ b
  inode : ¬ m.IsInode b

variable {m m' : Mksfs} {f g b p j : Nat} {s t : MkSlot}

theorem first_pos (m : Mksfs) : 2 ≤ m.first := Nat.le_add_right ..

theorem Unused.ne_zero (h : m.Unused b) : b ≠ 0 := by
  have := h.first_le
  have := m.first_pos
  omega

theorem child_zero (m : Mksfs) (j : Nat) : m.child 0 j = 0 := if_pos rfl

theorem child_of_ne (h : p ≠ 0) : m.child p j = getLe (m.cacheAt p) (4 * j) 4 := if_neg h

theorem child_congr (h : p ≠ 0 → m'.cacheAt p = m.cacheAt p) : m'.child p j = m.child p j := by
  unfold child
  by_cases hp : p = 0
  · rw [if_pos hp, if_pos hp]
  · rw [if_neg hp, if_neg hp, h hp]

/-- A slot depends on the inode and on the index blocks that lead to it. -/
theorem val_congr (hdir : (m'.inodeAt f).inode.direct = (m.inodeAt f).inode.direct)
    (hind : (m'.inodeAt f).inode.indirect = (m.inodeAt f).inode.indirect)
    (hdb : (m'.inodeAt f).inode.dbIndirect = (m.inodeAt f).inode.dbIndirect)
    (hc : ∀ p ∈ s.path, m.val f p ≠ 0 → m'.cacheAt (m.val f p) = m.cacheAt (m.val f p)) :
    m'.val f s = m.val f s := by
  cases s with
  | direct i => exact congrFun hdir i
  | indirect => exact hind
  | entry j =>
    show m'.child (m'.inodeAt f).inode.indirect j = _
    rw [hind]
    exact child_congr (hc .indirect (List.mem_singleton.mpr rfl))
  | dbIndirect => exact hdb
  | dbEntry a =>
    show m'.child (m'.inodeAt f).inode.dbIndirect a = _
    rw [hdb]
    exact child_congr (hc .dbIndirect (List.mem_singleton.mpr rfl))
  | dbLeaf a j =>
    have hentry : m'.child (m.inodeAt f).inode.dbIndirect a = m.child (m.inodeAt f).inode.dbIndirect a :=
      child_congr (hc .dbIndirect List.mem_cons_self)
    show m'.child (m'.child (m'.inodeAt f).inode.dbIndirect a) j = _
    rw [hdb, hentry]
    exact child_congr (hc (.dbEntry a) (List.mem_cons_of_mem _ (List.mem_singleton.mpr rfl)))

/-! ## The updates -/

/-- The next number is handed out. -/
def take (m : Mksfs) : Mksfs :=
  { m with super := { m.super with unusedBlocks := m.super.unusedBlocks - 1 }, nextIno := m.nextIno + 1 }

def setNode (m : Mksfs) (f : Nat) (ci : CacheInode) : Mksfs := { m with inodeAt := Function.update m.inodeAt f ci }

def setEntry (m : Mksfs) (b j v : Nat) : Mksfs :=
  { m with cacheAt := Function.update m.cacheAt b (putLe (m.cacheAt b) (4 * j) v 4) }

/-- An empty cache for block `b`. -/
def addCache (m : Mksfs) (b : Nat) : Mksfs :=
  { m with
    cacheAt := Function.update m.cacheAt b fun _ => 0
    blocks := Function.update m.blocks (hash32 0) (b :: m.blocks (hash32 0)) }

theorem val_take (m : Mksfs) (f : Nat) (s : MkSlot) : m.take.val f s = m.val f s := by
  cases s <;> rfl

theorem val_setImg (m : Mksfs) (img : Nat → Bytes) (f : Nat) (s : MkSlot) : { m with img := img }.val f s = m.val f s := by
  cases s <;> rfl

theorem Owned.take (h : m.Owned) (hlt : m.nextIno < m.ninos) : m.take.Owned where
  super := by
    obtain ⟨h1, h2, h3, h4, h5⟩ := h.super
    refine ⟨h1, h2, ?_, Nat.le_succ_of_le h4, h5⟩
    show m.super.unusedBlocks - 1 + (m.nextIno + 1) = m.ninos
    omega
  range := fun f s hs => by
    rw [val_take] at hs ⊢
    exact ⟨(h.range f s hs).1, Nat.lt_succ_of_lt (h.range f s hs).2⟩
  inj := fun f s g t he hs => by
    rw [val_take, val_take] at he
    rw [val_take] at hs
    exact h.inj f s g t he hs
  inode_range := fun f hf => (h.inode_range f hf).imp id fun hr => ⟨hr.1, Nat.lt_succ_of_lt hr.2⟩
  inode_apart := fun f g s hf => by
    rw [val_take]
    exact h.inode_apart f g s hf
  inode_list := h.inode_list
  cached := fun k b hb => by
    obtain ⟨hk, f, s, hs, hv, hz⟩ := h.cached k b hb
    exact ⟨hk, f, s, hs, (val_take m f s).trans hv, hz⟩
  listed := fun f s hs hz => by
    rw [val_take] at hz ⊢
    exact h.listed f s hs hz

/-- The number handed out has no use yet. -/
theorem Owned.unused_take (h : m.Owned) : m.take.Unused m.nextIno where
  first_le := h.super.first_le
  lt := Nat.lt_succ_self _
  val := fun f s he => by
    rw [val_take] at he
    have hne : m.val f s ≠ 0 := by
      have := h.super.first_le
      have := m.first_pos
      omega
    have := (h.range f s hne).2
    omega
  inode := fun hf => by
    have := h.super.first_le
    have := m.first_pos
    rcases h.inode_range _ hf with h1 | h2 <;> omega

theorem Unused.take (h : m.Unused b) : m.take.Unused b :=
  ⟨h.first_le, Nat.lt_succ_of_lt h.lt, fun f s => by
    rw [val_take]
    exact h.val f s, h.inode⟩

/-- The caches after a slot is filled: those from before, and one for an index block. -/
theorem mem_blocks_set {v : Nat} (hblocks : ¬ s.IsIndex ∧ m'.blocks = m.blocks ∨
      s.IsIndex ∧ ∃ k, k < 1024 ∧ m'.blocks = Function.update m.blocks k (v :: m.blocks k)) :
    (∀ k x, x ∈ m.blocks k → x ∈ m'.blocks k) ∧
    (∀ k x, x ∈ m'.blocks k → x ∈ m.blocks k ∨ s.IsIndex ∧ k < 1024 ∧ x = v) ∧ (s.IsIndex → ∃ k, v ∈ m'.blocks k) := by
  rcases hblocks with ⟨hn, hb⟩ | ⟨hs, l, hl, hb⟩
  · rw [hb]
    exact ⟨fun _ _ hx => hx, fun _ _ hx => .inl hx, fun hs => absurd hs hn⟩
  · rw [hb]
    refine ⟨fun k x hx => ?_, fun k x hx => ?_, fun _ => ⟨l, ?_⟩⟩
    · by_cases hkl : k = l
      · subst hkl
        rw [Function.update_self]
        exact List.mem_cons_of_mem _ hx
      · rwa [Function.update_of_ne hkl]
    · by_cases hkl : k = l
      · subst hkl
        rw [Function.update_self, List.mem_cons] at hx
        exact hx.elim (fun heq => .inr ⟨hs, hl, heq⟩) .inl
      · rw [Function.update_of_ne hkl] at hx
        exact .inl hx
    · rw [Function.update_self]
      exact List.mem_cons_self

/-- An unused number goes into an empty slot. -/
theorem Owned.set {v : Nat} (h : m.Owned) (hu : m.Unused v) (hsuper : m'.super = m.super) (hninos : m'.ninos = m.ninos)
    (hnext : m'.nextIno = m.nextIno) (hinodes : m'.inodes = m.inodes) (hslot : m'.val f s = v)
    (hother : ∀ g t, ¬ (g = f ∧ t = s) → m'.val g t = m.val g t)
    (hblocks : ¬ s.IsIndex ∧ m'.blocks = m.blocks ∨
      s.IsIndex ∧ ∃ k, k < 1024 ∧ m'.blocks = Function.update m.blocks k (v :: m.blocks k)) (hz : m.val f s = 0) :
    m'.Owned := by
  have hfirst : m'.first = m.first := by rw [first, first, hninos]
  have hinode : ∀ {x}, m'.IsInode x ↔ m.IsInode x := fun {x} => by rw [IsInode, IsInode, hinodes]
  have hcases : ∀ g t, g = f ∧ t = s ∨ ¬ (g = f ∧ t = s) := fun g t => em _
  obtain ⟨hmono, hin, hnew⟩ := mem_blocks_set hblocks
  constructor
  · obtain ⟨h1, h2, h3, h4, h5⟩ := h.super
    exact ⟨hsuper ▸ h1, by rw [hsuper, hninos, h2], by rw [hsuper, hnext, hninos, h3], by rw [hfirst, hnext]; exact h4,
      hninos ▸ h5⟩
  · intro g t hne
    rw [hfirst, hnext]
    rcases hcases g t with ⟨rfl, rfl⟩ | hd
    · rw [hslot]
      exact ⟨hu.first_le, hu.lt⟩
    · rw [hother g t hd] at hne ⊢
      exact h.range g t hne
  · -- the new number occurs nowhere else
    intro g t g' t' he hne
    rcases hcases g t with ⟨rfl, rfl⟩ | hd <;> rcases hcases g' t' with ⟨rfl, rfl⟩ | hd'
    · exact ⟨rfl, rfl⟩
    · rw [hslot, hother g' t' hd'] at he
      exact absurd he.symm (hu.val g' t')
    · rw [hslot, hother g t hd] at he
      exact absurd he (hu.val g t)
    · rw [hother g t hd, hother g' t' hd'] at he
      rw [hother g t hd] at hne
      exact h.inj g t g' t' he hne
  · intro x hx
    rw [hfirst, hnext]
    exact h.inode_range x (hinode.mp hx)
  · intro x g t hx
    rcases hcases g t with ⟨rfl, rfl⟩ | hd
    · rw [hslot]
      rintro rfl
      exact hu.inode (hinode.mp hx)
    · rw [hother g t hd]
      exact h.inode_apart x g t (hinode.mp hx)
  · rw [hinodes]
    exact h.inode_list
  · intro k x hx
    rcases hin k x hx with hx | ⟨hs, hk, rfl⟩
    · obtain ⟨hk, g, t, ht, hv, hne⟩ := h.cached k x hx
      have hd : ¬ (g = f ∧ t = s) := by
        rintro ⟨rfl, rfl⟩
        exact hne (hv.symm.trans hz)
      exact ⟨hk, g, t, ht, (hother g t hd).trans hv, hne⟩
    · exact ⟨hk, f, s, hs, hslot, hu.ne_zero⟩
  · intro g t ht hne
    rcases hcases g t with ⟨rfl, rfl⟩ | hd
    · rw [hslot]
      exact hnew ht
    · rw [hother g t hd] at hne ⊢
      obtain ⟨k, hk⟩ := h.listed g t ht hne
      exact ⟨k, hmono k _ hk⟩

theorem Unused.set {v : Nat} (h : m.Unused b) (hne : b ≠ v) (hninos : m'.ninos = m.ninos)
    (hnext : m'.nextIno = m.nextIno) (hinodes : m'.inodes = m.inodes) (hslot : m'.val f s = v)
    (hother : ∀ g t, ¬ (g = f ∧ t = s) → m'.val g t = m.val g t) : m'.Unused b := by
  refine ⟨?_, hnext ▸ h.lt, fun g t => ?_, ?_⟩
  · rw [first, hninos]
    exact h.first_le
  · by_cases hd : g = f ∧ t = s
    · obtain ⟨rfl, rfl⟩ := hd
      rw [hslot]
      exact hne.symm
    · rw [hother g t hd]
      exact h.val g t
  · rw [IsInode, hinodes]
    exact h.inode

end Mksfs

end Ucore
