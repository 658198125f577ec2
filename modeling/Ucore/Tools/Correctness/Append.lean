import Ucore.Tools.Correctness.MkInv

/-!
# `Tools.Correctness.Append` — appending a block to a file

`append_block` may first link new index blocks into the file (`Linked`: no data slot changes), then it
enters the data block in the next data slot. `appendBlock_run` puts the two together.
-/

namespace Ucore

/-- What an inode has besides its block numbers. -/
def CacheInode.plain (ci : CacheInode) : CacheInode :=
  { ci with
    l1 := none, l2 := none
    inode := { ci.inode with direct := fun _ => 0, indirect := 0, dbIndirect := 0 } }

namespace Mksfs

variable {m m' : Mksfs} {f g b p i j v : Nat} {s t : MkSlot}

/-! ## Slots under the updates -/

theorem cacheAt_addCache_self (m : Mksfs) (b : Nat) : (m.addCache b).cacheAt b = fun _ => 0 := Function.update_self _ _ _

theorem cacheAt_setEntry_self (m : Mksfs) (b j v : Nat) :
    (m.setEntry b j v).cacheAt b = putLe (m.cacheAt b) (4 * j) v 4 := Function.update_self _ _ _

theorem val_addCache (hb : ∀ g t, m.val g t ≠ b) (g : Nat) (t : MkSlot) : (m.addCache b).val g t = m.val g t :=
  val_congr rfl rfl rfl fun p _ _ => Function.update_of_ne (hb g p) _ _

theorem child_addCache (m : Mksfs) (b j : Nat) : (m.addCache b).child b j = 0 := by
  unfold child
  split
  · rfl
  · rw [cacheAt_addCache_self]
    exact getLe_zero fun _ _ _ => rfl

theorem val_setNode_self (m : Mksfs) (f : Nat) (ci : CacheInode) (t : MkSlot) :
    (m.setNode f ci).val f t = m.slotOf ci.inode t := by
  have hnode : (m.setNode f ci).inodeAt f = ci := Function.update_self _ _ _
  rw [val, hnode]
  cases t <;> rfl

theorem val_setNode_of_ne (ci : CacheInode) (h : g ≠ f) (t : MkSlot) : (m.setNode f ci).val g t = m.val g t := by
  have hnode : (m.setNode f ci).inodeAt g = m.inodeAt g := Function.update_of_ne h _ _
  exact val_congr (by rw [hnode]) (by rw [hnode]) (by rw [hnode]) fun _ _ _ => rfl

theorem inodeAt_setNode_self (m : Mksfs) (f : Nat) (ci : CacheInode) : (m.setNode f ci).inodeAt f = ci :=
  Function.update_self _ _ _

theorem inodeAt_setNode_of_ne (ci : CacheInode) (h : g ≠ f) : (m.setNode f ci).inodeAt g = m.inodeAt g :=
  Function.update_of_ne h _ _

/-- Changing neither the direct blocks nor the index pointers of an inode changes no slot. -/
theorem val_setNode {ci : CacheInode} (hdir : ci.inode.direct = (m.inodeAt f).inode.direct)
    (hind : ci.inode.indirect = (m.inodeAt f).inode.indirect)
    (hdb : ci.inode.dbIndirect = (m.inodeAt f).inode.dbIndirect) (g : Nat) (t : MkSlot) :
    (m.setNode f ci).val g t = m.val g t := by
  by_cases hg : g = f
  · subst hg
    have hnode := inodeAt_setNode_self m g ci
    exact val_congr (by rw [hnode, hdir]) (by rw [hnode, hind]) (by rw [hnode, hdb]) fun _ _ _ => rfl
  · exact val_setNode_of_ne ci hg t

/-- An entry is changed only for the slots below the index block. -/
theorem val_setEntry_of_path (h : ∀ p ∈ t.path, m.val g p ≠ b) : (m.setEntry b j v).val g t = m.val g t :=
  val_congr rfl rfl rfl fun p hp _ => Function.update_of_ne (h p hp) _ _

theorem child_setEntry_self (hb : b ≠ 0) (hv : v < 2 ^ 32) : (m.setEntry b j v).child b j = v := by
  have hmod : v % 256 ^ 4 = v := Nat.mod_eq_of_lt hv
  rw [child_of_ne hb, cacheAt_setEntry_self, getLe_putLe, hmod]

theorem child_setEntry_of_ne (h : i ≠ j) : (m.setEntry b j v).child p i = m.child p i := by
  by_cases hp : p = b
  · subst hp
    unfold child
    split
    · rfl
    · rw [cacheAt_setEntry_self, getLe_putLe_out (by omega)]
  · exact child_congr fun _ => Function.update_of_ne hp _ _

/-! ## Linking index blocks -/

/-- Index blocks have been linked into the file `f`: the data slots and the image are the same. -/
structure Linked (f : Nat) (m m' : Mksfs) : Prop where
  owned : m'.Owned
  ninos : m'.ninos = m.ninos
  img : m'.img = m.img
  entry : m'.entry = m.entry
  inodes : m'.inodes = m.inodes
  plain : ∀ g, (m'.inodeAt g).plain = (m.inodeAt g).plain
  data : ∀ g t, ¬ t.IsIndex → m'.val g t = m.val g t
  keep : ∀ g t, m.val g t ≠ 0 → m'.val g t = m.val g t
  outside : ∀ g, g ≠ f → ∀ t, m'.val g t = m.val g t
  unused : ∀ b, m.Unused b → m'.Unused b

/-- Handing out a number and giving it a cache, for a slot of `f` that was empty. -/
theorem Owned.link (h : m.Owned) (hlt : m.nextIno < m.ninos) (hs : s.IsIndex) (hz : m.val f s = 0)
    (hsuper : m'.super = m.take.super) (hninos : m'.ninos = m.ninos) (hnext : m'.nextIno = m.nextIno + 1)
    (hinodes : m'.inodes = m.inodes) (hblocks : m'.blocks = (m.addCache m.nextIno).blocks)
    (himg : m'.img = m.img) (hentry : m'.entry = m.entry) (hplain : ∀ g, (m'.inodeAt g).plain = (m.inodeAt g).plain)
    (hslot : m'.val f s = m.nextIno) (hother : ∀ g t, ¬ (g = f ∧ t = s) → m'.val g t = m.val g t) :
    Linked f m m' := by
  have htake : ∀ g t, ¬ (g = f ∧ t = s) → m'.val g t = m.take.val g t := fun g t hd => by
    rw [val_take]
    exact hother g t hd
  have hk : hash32 0 < 1024 := by decide
  have howned : m'.Owned := (h.take hlt).set h.unused_take hsuper hninos hnext hinodes hslot htake
    (Or.inr ⟨hs, hash32 0, hk, hblocks⟩) ((val_take m f s).trans hz)
  refine ⟨howned, hninos, himg, hentry, hinodes, hplain, fun g t ht => hother g t ?_, fun g t hne => hother g t ?_,
    fun g hg t => hother g t ?_, fun b hb => ?_⟩
  · rintro ⟨-, rfl⟩
    exact ht hs
  · rintro ⟨rfl, rfl⟩
    exact hne hz
  · rintro ⟨rfl, -⟩
    exact hg rfl
  · have hne : b ≠ m.nextIno := by
      have := hb.lt
      omega
    exact hb.take.set hne hninos hnext hinodes hslot htake

theorem updateCache_ok {cb : Option Nat} {ino : Nat} (h : updateCache cb ino m = .ok b m') :
    ino ≠ 0 ∧ b = ino ∧ m' = m ∨ ino = 0 ∧ m.nextIno < m.ninos ∧ b = m.nextIno ∧ m' = m.take.addCache m.nextIno := by
  unfold updateCache at h
  by_cases hz : ino = 0
  · rw [if_pos hz] at h
    refine Or.inr ⟨hz, ?_⟩
    unfold allocCacheBlock sfsAllocIno at h
    simp only [ne_eq, not_true_eq_false, if_false] at h
    by_cases hlt : m.nextIno < m.ninos
    · simp only [Proc.bind_run, Proc.get_run, if_pos hlt, Proc.put_run, Proc.pure_run, Proc.modify_run] at h
      obtain ⟨rfl, rfl⟩ : m.nextIno = b ∧ m.take.addCache m.nextIno = m' := by
        injection h with h1 h2
        exact ⟨h1, h2⟩
      exact ⟨hlt, rfl, rfl⟩
    · simp only [Proc.bind_run, Proc.get_run, if_neg hlt, Proc.stop_run] at h
      cases h
  · rw [if_neg hz] at h
    refine Or.inl ⟨hz, ?_⟩
    by_cases hcb : cb ≠ some ino
    · rw [if_pos hcb, Proc.get_bind] at h
      cases hs : searchCacheBlock m ino with
      | none =>
        rw [hs] at h
        cases h
      | some cb' =>
        rw [hs] at h
        have heq : cb' = ino := by
          have := List.find?_some hs
          exact of_decide_eq_true this
        injection h with h1 h2
        exact ⟨h1.symm.trans heq, h2.symm⟩
    · rw [if_neg hcb] at h
      injection h with h1 h2
      exact ⟨h1.symm, h2.symm⟩

/-- No slot has changed. -/
theorem Owned.of_val (h : m.Owned) (hsuper : m'.super = m.super) (hninos : m'.ninos = m.ninos)
    (hnext : m'.nextIno = m.nextIno) (hinodes : m'.inodes = m.inodes) (hblocks : m'.blocks = m.blocks)
    (hval : ∀ g t, m'.val g t = m.val g t) : m'.Owned := by
  have hfirst : m'.first = m.first := by rw [first, first, hninos]
  have hinode : ∀ {x}, m'.IsInode x ↔ m.IsInode x := fun {x} => by rw [IsInode, IsInode, hinodes]
  obtain ⟨h1, h2, h3, h4, h5⟩ := h.super
  refine ⟨⟨hsuper ▸ h1, ?_, ?_, ?_, hninos ▸ h5⟩, fun g t hne => ?_, fun g t g' t' he hne => ?_, fun x hx => ?_,
    fun x g t hx => ?_, ?_, fun k b hb => ?_, fun g t ht hne => ?_⟩
  · rw [hsuper, hninos, h2]
  · rw [hsuper, hnext, hninos, h3]
  · rw [hfirst, hnext]
    exact h4
  · rw [hval] at hne ⊢
    rw [hfirst, hnext]
    exact h.range g t hne
  · rw [hval] at he hne
    rw [hval] at he
    exact h.inj g t g' t' he hne
  · rw [hfirst, hnext]
    exact h.inode_range x (hinode.mp hx)
  · rw [hval]
    exact h.inode_apart x g t (hinode.mp hx)
  · rw [hinodes]
    exact h.inode_list
  · rw [hblocks] at hb
    obtain ⟨hk, g, t, ht, hv, hz⟩ := h.cached k b hb
    exact ⟨hk, g, t, ht, (hval g t).trans hv, hz⟩
  · rw [hval] at hne ⊢
    rw [hblocks]
    exact h.listed g t ht hne

theorem Unused.of_val (h : m.Unused b) (hninos : m'.ninos = m.ninos) (hnext : m'.nextIno = m.nextIno)
    (hinodes : m'.inodes = m.inodes) (hval : ∀ g t, m'.val g t = m.val g t) : m'.Unused b := by
  refine ⟨?_, hnext ▸ h.lt, fun g t => ?_, ?_⟩
  · rw [first, hninos]
    exact h.first_le
  · rw [hval]
    exact h.val g t
  · rw [IsInode, hinodes]
    exact h.inode

theorem Linked.of_val (h : m.Owned) (hsuper : m'.super = m.super) (hninos : m'.ninos = m.ninos)
    (hnext : m'.nextIno = m.nextIno) (hinodes : m'.inodes = m.inodes) (hblocks : m'.blocks = m.blocks)
    (himg : m'.img = m.img) (hentry : m'.entry = m.entry) (hplain : ∀ g, (m'.inodeAt g).plain = (m.inodeAt g).plain)
    (hval : ∀ g t, m'.val g t = m.val g t) : Linked f m m' :=
  ⟨h.of_val hsuper hninos hnext hinodes hblocks hval, hninos, himg, hentry, hinodes, hplain, fun g t _ => hval g t,
    fun g t _ => hval g t, fun g _ t => hval g t, fun _ hb => hb.of_val hninos hnext hinodes hval⟩

theorem plain_setNode {ci : CacheInode} (hplain : ci.plain = (m.inodeAt f).plain) (g : Nat) :
    ((m.setNode f ci).inodeAt g).plain = (m.inodeAt g).plain := by
  by_cases hg : g = f
  · subst hg
    rw [inodeAt_setNode_self, hplain]
  · rw [inodeAt_setNode_of_ne ci hg]

/-- Nothing but the cache pointers of the file has changed. -/
theorem Linked.of_same (h : m.Owned) {ci : CacheInode} (hplain : ci.plain = (m.inodeAt f).plain)
    (hdir : ci.inode.direct = (m.inodeAt f).inode.direct) (hind : ci.inode.indirect = (m.inodeAt f).inode.indirect)
    (hdb : ci.inode.dbIndirect = (m.inodeAt f).inode.dbIndirect) : Linked f m (m.setNode f ci) :=
  .of_val h rfl rfl rfl rfl rfl rfl rfl (plain_setNode hplain) (val_setNode hdir hind hdb)

theorem Linked.trans (h : Linked f m m') {m'' : Mksfs} (h' : Linked f m' m'') : Linked f m m'' where
  owned := h'.owned
  ninos := h'.ninos.trans h.ninos
  img := h'.img.trans h.img
  entry := h'.entry.trans h.entry
  inodes := h'.inodes.trans h.inodes
  plain := fun g => (h'.plain g).trans (h.plain g)
  data := fun g t ht => (h'.data g t ht).trans (h.data g t ht)
  keep := fun g t hne => by
    have heq := h.keep g t hne
    rw [h'.keep g t (heq.symm ▸ hne), heq]
  outside := fun g hg t => (h'.outside g hg t).trans (h.outside g hg t)
  unused := fun b hb => h'.unused b (h.unused b hb)

/-- The single indirect block. -/
theorem updateIndirect_linked (h : m.Owned) (hrun : updateIndirect f m = .ok b m') :
    Linked f m m' ∧ b ≠ 0 ∧ m'.val f .indirect = b := by
  unfold updateIndirect at hrun
  rw [Proc.get_bind] at hrun
  obtain ⟨b', m₁, hup, hrun⟩ := Proc.bind_eq_ok.mp hrun
  obtain ⟨rfl, rfl⟩ : b' = b ∧ m₁.setNode f { m.inodeAt f with
      l1 := some b', inode := { (m.inodeAt f).inode with indirect := b' } } = m' := by
    injection hrun with h1 h2
    exact ⟨h1, h2⟩
  rcases updateCache_ok hup with ⟨hne, rfl, rfl⟩ | ⟨hz, hlt, rfl, rfl⟩
  · exact ⟨.of_same h rfl rfl rfl rfl, hne, val_setNode_self _ f _ .indirect⟩
  · have hu := h.unused_take
    have hold : ∀ g t, (m.take.addCache m.nextIno).val g t = m.val g t := fun g t => by
      rw [val_addCache hu.val, val_take]
    have hs : (MkSlot.indirect).IsIndex := trivial
    have hslot : ∀ ci : CacheInode, ci.inode.indirect = m.nextIno →
        ((m.take.addCache m.nextIno).setNode f ci).val f .indirect = m.nextIno := fun ci hci =>
      (val_setNode_self _ f ci .indirect).trans hci
    refine ⟨h.link hlt hs hz rfl rfl rfl rfl rfl rfl rfl (fun g => ?_) (hslot _ rfl) fun g t hd => ?_, hu.ne_zero,
      hslot _ rfl⟩
    · refine plain_setNode (m := m.take.addCache m.nextIno) ?_ g
      rfl
    · by_cases hg : g = f
      · subst hg
        rw [val_setNode_self]
        cases t with
        | indirect => exact absurd ⟨rfl, rfl⟩ hd
        | entry j =>
          -- the new block has no entries, and there were none before
          show (m.take.addCache m.nextIno).child m.nextIno j = m.child (m.inodeAt g).inode.indirect j
          rw [hz, child_zero, child_addCache]
        | direct i => exact hold g (.direct i)
        | dbIndirect => exact hold g .dbIndirect
        | dbEntry a => exact hold g (.dbEntry a)
        | dbLeaf a j => exact hold g (.dbLeaf a j)
      · rw [val_setNode_of_ne _ hg]
        exact hold g t

/-- The double indirect block. -/
theorem updateDbIndirect_linked (h : m.Owned) (hrun : updateDbIndirect f m = .ok b m') :
    Linked f m m' ∧ b ≠ 0 ∧ m'.val f .dbIndirect = b := by
  unfold updateDbIndirect at hrun
  rw [Proc.get_bind] at hrun
  obtain ⟨b', m₁, hup, hrun⟩ := Proc.bind_eq_ok.mp hrun
  obtain ⟨rfl, rfl⟩ : b' = b ∧ m₁.setNode f { m.inodeAt f with
      l2 := some b', inode := { (m.inodeAt f).inode with dbIndirect := b' } } = m' := by
    injection hrun with h1 h2
    exact ⟨h1, h2⟩
  rcases updateCache_ok hup with ⟨hne, rfl, rfl⟩ | ⟨hz, hlt, rfl, rfl⟩
  · exact ⟨.of_same h rfl rfl rfl rfl, hne, val_setNode_self _ f _ .dbIndirect⟩
  · have hu := h.unused_take
    have hold : ∀ g t, (m.take.addCache m.nextIno).val g t = m.val g t := fun g t => by
      rw [val_addCache hu.val, val_take]
    have hs : (MkSlot.dbIndirect).IsIndex := trivial
    have hslot : ∀ ci : CacheInode, ci.inode.dbIndirect = m.nextIno →
        ((m.take.addCache m.nextIno).setNode f ci).val f .dbIndirect = m.nextIno := fun ci hci =>
      (val_setNode_self _ f ci .dbIndirect).trans hci
    refine ⟨h.link hlt hs hz rfl rfl rfl rfl rfl rfl rfl (fun g => ?_) (hslot _ rfl) fun g t hd => ?_, hu.ne_zero,
      hslot _ rfl⟩
    · refine plain_setNode (m := m.take.addCache m.nextIno) ?_ g
      rfl
    · by_cases hg : g = f
      · subst hg
        rw [val_setNode_self]
        have hempty : ∀ a, (m.take.addCache m.nextIno).child m.nextIno a = m.child (m.inodeAt g).inode.dbIndirect a := by
          intro a
          rw [hz, child_zero, child_addCache]
        cases t with
        | dbIndirect => exact absurd ⟨rfl, rfl⟩ hd
        | dbEntry a => exact hempty a
        | dbLeaf a j =>
          show (m.take.addCache m.nextIno).child ((m.take.addCache m.nextIno).child m.nextIno a) j =
            m.child (m.child (m.inodeAt g).inode.dbIndirect a) j
          rw [hempty, hz, child_zero, child_zero, child_zero]
        | direct i => exact hold g (.direct i)
        | indirect => exact hold g .indirect
        | entry j => exact hold g (.entry j)
      · rw [val_setNode_of_ne _ hg]
        exact hold g t

/-! ## Entries of the index blocks -/

section Entries

variable {q : MkSlot} (hne : b ≠ 0) (hinj : ∀ g t, t.IsIndex → m.val g t = b → g = f ∧ t = q)

include hinj in
/-- A slot that the index block does not lead to. -/
theorem val_setEntry_other (h : ¬ (g = f ∧ q ∈ t.path)) : (m.setEntry b j v).val g t = m.val g t :=
  val_setEntry_of_path fun p hp he => by
    obtain ⟨rfl, rfl⟩ := hinj g p (MkSlot.isIndex_of_path hp) he
    exact h ⟨rfl, hp⟩

include hne hinj in
/-- An entry of a first-level index block, single or double. -/
theorem val_setEntry_leaf (hv : v < 2 ^ 32) (hq : m.val f q = b) {leaf : Nat → MkSlot}
    (hleaf : q = .indirect ∧ leaf = .entry ∨ ∃ a, q = .dbEntry a ∧ leaf = .dbLeaf a) :
    (m.setEntry b j v).val f (leaf j) = v ∧
      ∀ g t, ¬ (g = f ∧ t = leaf j) → (m.setEntry b j v).val g t = m.val g t := by
  have hroot : (m.setEntry b j v).val f q = b := by
    refine (val_setEntry_other hinj fun hc => ?_).trans hq
    rcases hleaf with ⟨rfl, -⟩ | ⟨a, rfl, -⟩
    · exact absurd hc.2 List.not_mem_nil
    · exact MkSlot.noConfusion (List.mem_singleton.mp hc.2)
  have hchild : ∀ i, (m.setEntry b j v).val f (leaf i) = (m.setEntry b j v).child b i ∧ m.val f (leaf i) = m.child b i := by
    intro i
    rcases hleaf with ⟨rfl, rfl⟩ | ⟨a, rfl, rfl⟩
    · exact ⟨congrArg ((m.setEntry b j v).child · i) hroot, congrArg (m.child · i) hq⟩
    · exact ⟨congrArg ((m.setEntry b j v).child · i) hroot, congrArg (m.child · i) hq⟩
  have hpath : ∀ t, q ∈ t.path → ∃ i, t = leaf i := by
    intro t ht
    rcases hleaf with ⟨rfl, rfl⟩ | ⟨a, rfl, rfl⟩
    · cases t <;> simp_all [MkSlot.path]
    · cases t <;> simp_all [MkSlot.path]
  refine ⟨(hchild j).1.trans (child_setEntry_self hne hv), fun g t hd => ?_⟩
  by_cases hp : g = f ∧ q ∈ t.path
  · obtain ⟨rfl, ht⟩ := hp
    obtain ⟨i, rfl⟩ := hpath t ht
    have hij : i ≠ j := by
      rintro rfl
      exact hd ⟨rfl, rfl⟩
    rw [(hchild i).1, (hchild i).2, child_setEntry_of_ne hij]
  · exact val_setEntry_other hinj hp

include hne hinj in
/-- An entry of the double indirect block. -/
theorem val_setEntry_db (hv : v < 2 ^ 32) (hvb : v ≠ b) (hq : q = .dbIndirect) (hb : m.val f .dbIndirect = b) :
    (m.setEntry b j v).val f (.dbEntry j) = v ∧ (∀ i, (m.setEntry b j v).val f (.dbLeaf j i) = m.child v i) ∧
      ∀ g t, ¬ (g = f ∧ t = .dbEntry j) → (∀ i, ¬ (g = f ∧ t = .dbLeaf j i)) →
        (m.setEntry b j v).val g t = m.val g t := by
  subst hq
  have hroot : (m.setEntry b j v).val f .dbIndirect = b :=
    (val_setEntry_other hinj fun hc => absurd hc.2 List.not_mem_nil).trans hb
  have hentry : ∀ a, (m.setEntry b j v).val f (.dbEntry a) = (m.setEntry b j v).child b a ∧
      m.val f (.dbEntry a) = m.child b a := fun a =>
    ⟨congrArg ((m.setEntry b j v).child · a) hroot, congrArg (m.child · a) hb⟩
  have hself : (m.setEntry b j v).val f (.dbEntry j) = v := (hentry j).1.trans (child_setEntry_self hne hv)
  have hother : ∀ a, a ≠ j → (m.setEntry b j v).val f (.dbEntry a) = m.val f (.dbEntry a) := by
    intro a ha
    rw [(hentry a).1, (hentry a).2, child_setEntry_of_ne ha]
  have hchild : ∀ x i, x ≠ b → (m.setEntry b j v).child x i = m.child x i := fun x i hx =>
    child_congr fun _ => Function.update_of_ne hx _ _
  refine ⟨hself, fun i => ?_, fun g t hd hleaf => ?_⟩
  · show (m.setEntry b j v).child ((m.setEntry b j v).val f (.dbEntry j)) i = _
    rw [hself]
    exact hchild v i hvb
  · by_cases hp : g = f ∧ MkSlot.dbIndirect ∈ t.path
    · obtain ⟨rfl, ht⟩ := hp
      cases t with
      | dbEntry a =>
        refine hother a ?_
        rintro rfl
        exact hd ⟨rfl, rfl⟩
      | dbLeaf a i =>
        have ha : a ≠ j := by
          rintro rfl
          exact hleaf i ⟨rfl, rfl⟩
        have hx : m.val g (.dbEntry a) ≠ b := fun he => MkSlot.noConfusion (hinj g (.dbEntry a) trivial he).2
        show (m.setEntry b j v).child ((m.setEntry b j v).val g (.dbEntry a)) i = m.child (m.val g (.dbEntry a)) i
        rw [hother a ha]
        exact hchild _ i hx
      | direct i => exact absurd ht List.not_mem_nil
      | indirect => exact absurd ht List.not_mem_nil
      | entry i => exact MkSlot.noConfusion (List.mem_singleton.mp ht)
      | dbIndirect => exact absurd ht List.not_mem_nil
    · exact val_setEntry_other hinj hp

end Entries

theorem Owned.val_lt (h : m.Owned) (f : Nat) (s : MkSlot) : m.val f s < 2 ^ 32 := by
  by_cases hz : m.val f s = 0
  · rw [hz]
    decide
  · have hlt := (h.range f s hz).2
    have hninos := h.super.ninos_le
    have hsum := h.super.unused
    omega

/-- A block of the double indirect block. -/
theorem updateDbEntry_linked (h : m.Owned) (hl2 : m.val f .dbIndirect = p) (hp : p ≠ 0)
    (hrun : updateDbEntry f p i m = .ok b m') : Linked f m m' ∧ b ≠ 0 ∧ m'.val f (.dbEntry i) = b := by
  unfold updateDbEntry at hrun
  rw [Proc.get_bind] at hrun
  obtain ⟨b', m₁, hup, hrun⟩ := Proc.bind_eq_ok.mp hrun
  obtain ⟨rfl, rfl⟩ : b' = b ∧ (m₁.setNode f { m.inodeAt f with l1 := some b' }).setEntry p i b' = m' := by
    injection hrun with h1 h2
    exact ⟨h1, h2⟩
  have hentry : ∀ a, m.val f (.dbEntry a) = m.child p a := fun a => congrArg (m.child · a) hl2
  have hold : getLe (m.cacheAt p) (4 * i) 4 = m.val f (.dbEntry i) := by
    rw [hentry, child_of_ne hp]
  rw [hold] at hup
  have hinj : ∀ m₁ : Mksfs, (∀ g t, m₁.val g t = m.val g t) → ∀ g t, MkSlot.IsIndex t → m₁.val g t = p →
      g = f ∧ t = .dbIndirect := by
    intro m₁ hval g t _ he
    rw [hval] at he
    have heq := he.trans hl2.symm
    exact h.inj g t f .dbIndirect heq (by rw [he]; exact hp)
  rcases updateCache_ok hup with ⟨hne, rfl, rfl⟩ | ⟨hz, hlt, rfl, rfl⟩
  · -- the entry is there, and is written again
    have hval := @val_setNode m₁ f { m₁.inodeAt f with l1 := some (m₁.val f (.dbEntry i)) } rfl rfl rfl
    have hbp : m₁.val f (.dbEntry i) ≠ p := fun he =>
      MkSlot.noConfusion (hinj m₁ (fun _ _ => rfl) f (.dbEntry i) trivial he).2
    obtain ⟨hself, hleaf, hother⟩ := val_setEntry_db (j := i) hp (hinj _ hval) (h.val_lt f (.dbEntry i)) hbp rfl
      ((hval f .dbIndirect).trans hl2)
    refine ⟨.of_val h rfl rfl rfl rfl rfl rfl rfl (fun g => ?_) fun g t => ?_, hne, hself⟩
    · refine plain_setNode (m := m₁) ?_ g
      rfl
    · by_cases hd : g = f ∧ t = .dbEntry i
      · obtain ⟨rfl, rfl⟩ := hd
        exact hself
      · by_cases hd' : ∃ j, g = f ∧ t = .dbLeaf i j
        · obtain ⟨j, rfl, rfl⟩ := hd'
          exact hleaf j
        · exact (hother g t hd fun j hj => hd' ⟨j, hj⟩).trans (hval g t)
  · -- a new block, without entries
    have hu := h.unused_take
    have hval : ∀ g t, ((m.take.addCache m.nextIno).setNode f { m.inodeAt f with l1 := some m.nextIno }).val g t
        = m.val g t := by
      intro g t
      refine Eq.trans (val_setNode (m := m.take.addCache m.nextIno) ?_ ?_ ?_ g t) ?_
      · rfl
      · rfl
      · rfl
      · rw [val_addCache hu.val, val_take]
    have hbp : m.nextIno ≠ p := by
      rintro rfl
      exact hu.val f .dbIndirect ((val_take m f _).trans hl2)
    have hbound : m.nextIno < 2 ^ 32 := by
      have := h.super.ninos_le
      omega
    obtain ⟨hself, hleaf, hother⟩ := val_setEntry_db (j := i) hp (hinj _ hval) hbound hbp rfl ((hval f .dbIndirect).trans hl2)
    have hs : (MkSlot.dbEntry i).IsIndex := trivial
    refine ⟨h.link hlt hs hz rfl rfl rfl rfl rfl rfl rfl (fun g => ?_) hself fun g t hd => ?_, hu.ne_zero, hself⟩
    · refine plain_setNode (m := m.take.addCache m.nextIno) ?_ g
      rfl
    · by_cases hd' : ∃ j, g = f ∧ t = .dbLeaf i j
      · obtain ⟨j, rfl, rfl⟩ := hd'
        have h0 : m.val g (.dbLeaf i j) = 0 := by
          show m.child (m.val g (.dbEntry i)) j = 0
          rw [hz, child_zero]
        rw [hleaf j, h0]
        exact child_addCache _ _ _
      · exact (hother g t hd fun j hj => hd' ⟨j, hj⟩).trans (hval g t)

/-! ## Entering a data block -/

/-- The unused block `ino` has become data block `k` of the file `f`. -/
structure Entered (f k ino : Nat) (m m' : Mksfs) : Prop where
  owned : m'.Owned
  ninos : m'.ninos = m.ninos
  img : m'.img = m.img
  entry : m'.entry = m.entry
  inodes : m'.inodes = m.inodes
  plain : ∀ g, (m'.inodeAt g).plain = (m.inodeAt g).plain
  slot : m'.val f (.data k) = ino
  data : ∀ g t, ¬ t.IsIndex → ¬ (g = f ∧ t = .data k) → m'.val g t = m.val g t
  outside : ∀ g, g ≠ f → ∀ t, m'.val g t = m.val g t
  unused : ∀ b, m.Unused b → b ≠ ino → m'.Unused b

variable {k ino size : Nat}

/-- Entering a block once the index blocks are there. -/
theorem Linked.entered {m₁ : Mksfs} (hl : Linked f m m₁) (hu : m.Unused ino) (hz : m.val f (.data k) = 0)
    (hsuper : m'.super = m₁.super) (hninos : m'.ninos = m₁.ninos) (hnext : m'.nextIno = m₁.nextIno)
    (hinodes : m'.inodes = m₁.inodes) (hblocks : m'.blocks = m₁.blocks) (himg : m'.img = m₁.img)
    (hentry : m'.entry = m₁.entry) (hplain : ∀ g, (m'.inodeAt g).plain = (m₁.inodeAt g).plain)
    (hslot : m'.val f (.data k) = ino) (hother : ∀ g t, ¬ (g = f ∧ t = .data k) → m'.val g t = m₁.val g t) :
    Entered f k ino m m' := by
  have hnot := MkSlot.not_isIndex_data k
  have hz₁ : m₁.val f (.data k) = 0 := (hl.data f _ hnot).trans hz
  refine ⟨hl.owned.set (hl.unused ino hu) hsuper hninos hnext hinodes hslot hother (Or.inl ⟨hnot, hblocks⟩) hz₁,
    hninos.trans hl.ninos, himg.trans hl.img, hentry.trans hl.entry, hinodes.trans hl.inodes,
    fun g => (hplain g).trans (hl.plain g), hslot, fun g t ht hd => (hother g t hd).trans (hl.data g t ht),
    fun g hg t => ?_, fun b hb hne => ?_⟩
  · exact (hother g t fun hc => hg hc.1).trans (hl.outside g hg t)
  · exact (hl.unused b hb).set hne hninos hnext hinodes hslot hother

theorem appendEntry_entered (h : m.Owned) (hu : m.Unused ino) (hk : (m.inodeAt f).nblks = k) (hlt : k < 32768)
    (hz : m.val f (.data k) = 0) (hrun : appendEntry f ino m = .ok () m') : Entered f k ino m m' := by
  have hbound : ino < 2 ^ 32 := by
    have hlt := hu.lt
    have hsum := h.super.unused
    have hle := h.super.ninos_le
    omega
  subst hk
  unfold appendEntry at hrun
  rw [Proc.get_bind] at hrun
  dsimp only at hrun
  by_cases hd : (m.inodeAt f).nblks < 12
  · -- a direct slot
    rw [dif_pos hd] at hrun
    obtain rfl : m.setNode f { m.inodeAt f with inode := { (m.inodeAt f).inode with
        direct := Function.update (m.inodeAt f).inode.direct ⟨(m.inodeAt f).nblks, hd⟩ ino } } = m' := by
      injection hrun
    have hdata := MkSlot.data_direct hd
    refine (Linked.of_val h rfl rfl rfl rfl rfl rfl rfl (fun _ => rfl) fun _ _ => rfl : Linked f m m).entered hu hz rfl rfl rfl
      rfl rfl rfl rfl (plain_setNode ?_) ?_ fun g t hne => ?_
    · rfl
    · rw [val_setNode_self, hdata]
      exact Function.update_self _ _ _
    · by_cases hg : g = f
      · subst hg
        rw [val_setNode_self]
        cases t with
        | direct i =>
          have hi : i ≠ ⟨(m.inodeAt g).nblks, hd⟩ := by
            rintro rfl
            exact hne ⟨rfl, hdata.symm⟩
          exact Function.update_of_ne hi _ _
        | indirect => rfl
        | entry j => rfl
        | dbIndirect => rfl
        | dbEntry a => rfl
        | dbLeaf a j => rfl
      · exact val_setNode_of_ne _ hg t
  rw [dif_neg hd] at hrun
  by_cases hi : (m.inodeAt f).nblks < sfsL1Nblks
  · -- an entry of the indirect block
    rw [if_pos hi] at hrun
    have hi' : (m.inodeAt f).nblks < 1036 := hi
    have hdata := MkSlot.data_entry hd hi'
    obtain ⟨b, m₁, hup, hrun⟩ := Proc.bind_eq_ok.mp hrun
    obtain rfl : m₁.setEntry b ((m.inodeAt f).nblks - 12) ino = m' := by
      injection hrun
    obtain ⟨hl, hb, hroot⟩ := updateIndirect_linked h hup
    have hinj : ∀ g t, MkSlot.IsIndex t → m₁.val g t = b → g = f ∧ t = .indirect := fun g t _ he =>
      hl.owned.inj g t f .indirect (he.trans hroot.symm) (by rw [he]; exact hb)
    obtain ⟨hslot, hother⟩ := val_setEntry_leaf (j := (m.inodeAt f).nblks - 12) hb hinj hbound hroot (Or.inl ⟨rfl, rfl⟩)
    rw [← hdata] at hslot hother
    exact hl.entered hu hz rfl rfl rfl rfl rfl rfl rfl (fun _ => rfl) hslot hother
  · -- an entry of a block of the double indirect block
    rw [if_neg hi, if_pos (Nat.lt_trans hlt (by decide))] at hrun
    have hi' : ¬ (m.inodeAt f).nblks < 1036 := hi
    have hdata := MkSlot.data_dbLeaf hi'
    obtain ⟨p, m₁, hup, hrun⟩ := Proc.bind_eq_ok.mp hrun
    obtain ⟨b, m₂, hup', hrun⟩ := Proc.bind_eq_ok.mp hrun
    obtain rfl : m₂.setEntry b (((m.inodeAt f).nblks - 1036) % 1024) ino = m' := by
      injection hrun
    obtain ⟨hl, hp, hroot⟩ := updateDbIndirect_linked h hup
    obtain ⟨hl', hb, hroot'⟩ := updateDbEntry_linked hl.owned hroot hp hup'
    have hinj : ∀ g t, MkSlot.IsIndex t → m₂.val g t = b → g = f ∧ t = .dbEntry (((m.inodeAt f).nblks - 1036) / 1024) := fun g t _ he =>
      hl'.owned.inj g t f _ (he.trans hroot'.symm) (by rw [he]; exact hb)
    obtain ⟨hslot, hother⟩ := val_setEntry_leaf (j := ((m.inodeAt f).nblks - 1036) % 1024) hb hinj hbound hroot' (Or.inr ⟨_, rfl, rfl⟩)
    rw [← hdata] at hslot hother
    exact (hl.trans hl').entered hu hz rfl rfl rfl rfl rfl rfl rfl (fun _ => rfl) hslot hother

/-! ## The whole of `append_block` -/

/-- The file `f` has got one more block, `ino`, with `size` bytes. -/
structure Appended (f size ino : Nat) (m m' : Mksfs) : Prop where
  inv : m'.Inv
  size_le : size ≤ 4096
  ninos : m'.ninos = m.ninos
  img : m'.img = m.img
  entry : m'.entry = m.entry
  inodes : m'.inodes = m.inodes
  plain : ∀ g, g ≠ f → (m'.inodeAt g).plain = (m.inodeAt g).plain
  nblks : (m'.inodeAt f).nblks = (m.inodeAt f).nblks + 1
  bytes : (m'.inodeAt f).inode.size = (m.inodeAt f).inode.size + size
  type : (m'.inodeAt f).inode.type = (m.inodeAt f).inode.type
  real : (m'.inodeAt f).real = (m.inodeAt f).real
  slot : m'.val f (.data (m.inodeAt f).nblks) = ino
  data : ∀ g k, k < (m.inodeAt g).nblks → m'.val g (.data k) = m.val g (.data k)
  unused : ∀ b, m.Unused b → b ≠ ino → m'.Unused b

/-- The file `f` counts one more block, with `size` bytes. -/
def counted (m : Mksfs) (f size : Nat) : Mksfs :=
  m.setNode f { m.inodeAt f with
    nblks := (m.inodeAt f).nblks + 1, inode := { (m.inodeAt f).inode with
      size := (m.inodeAt f).inode.size + size, blocks := (m.inodeAt f).inode.blocks + 1 } }

theorem val_counted (m : Mksfs) (f size g : Nat) (t : MkSlot) : (m.counted f size).val g t = m.val g t := by
  unfold counted
  refine val_setNode ?_ ?_ ?_ g t
  · rfl
  · rfl
  · rfl

theorem inodeAt_counted_self (m : Mksfs) (f size : Nat) : (m.counted f size).inodeAt f = { m.inodeAt f with
    nblks := (m.inodeAt f).nblks + 1, inode := { (m.inodeAt f).inode with
      size := (m.inodeAt f).inode.size + size, blocks := (m.inodeAt f).inode.blocks + 1 } } := inodeAt_setNode_self m f _

theorem inodeAt_counted_of_ne (size : Nat) (hg : g ≠ f) : (m.counted f size).inodeAt g = m.inodeAt g := inodeAt_setNode_of_ne _ hg

namespace Entered

variable {m₂ : Mksfs}

theorem data_ne (he : Entered f k ino m m₂) {j : Nat} (hj : ¬ (g = f ∧ j = k)) : m₂.val g (.data j) = m.val g (.data j) :=
  he.data g _ (MkSlot.not_isIndex_data j) fun hc => hj ⟨hc.1, MkSlot.data_inj hc.2⟩

theorem plain_ne (he : Entered f k ino m m₂) (hg : g ≠ f) (size : Nat) :
    ((m₂.counted f size).inodeAt g).plain = (m.inodeAt g).plain := by
  rw [inodeAt_counted_of_ne _ hg]
  exact he.plain g

/-- The counts of the file -/
theorem counts_self (he : Entered f (m.inodeAt f).nblks ino m m₂) (hc : m.Counts f) (hino : ino ≠ 0)
    (hlt : (m.inodeAt f).nblks < 32768) (hsize : size ≤ 4096) : (m₂.counted f size).Counts f := by
  have hplain := he.plain f
  have hnblks : (m₂.inodeAt f).nblks = (m.inodeAt f).nblks := congrArg (·.nblks) hplain
  have hbytes : (m₂.inodeAt f).inode.size = (m.inodeAt f).inode.size := congrArg (·.inode.size) hplain
  have hblocks : (m₂.inodeAt f).inode.blocks = (m.inodeAt f).inode.blocks := congrArg (·.inode.blocks) hplain
  have htype : (m₂.inodeAt f).inode.type = (m.inodeAt f).inode.type := congrArg (·.inode.type) hplain
  have hnlinks : (m₂.inodeAt f).inode.nlinks = (m.inodeAt f).inode.nlinks := congrArg (·.inode.nlinks) hplain
  have hself := inodeAt_counted_self m₂ f size
  refine ⟨fun j => ?_, ?_, ?_, ?_, ?_, ?_⟩
  · rw [val_counted, hself]
    show _ ↔ j < (m₂.inodeAt f).nblks + 1
    by_cases hj : j = (m.inodeAt f).nblks
    · subst hj
      rw [he.slot]
      exact iff_of_true hino (by omega)
    · rw [he.data_ne fun hand => hj hand.2, hc.dense]
      omega
  · rw [hself]
    show (m₂.inodeAt f).nblks + 1 ≤ 32768
    omega
  · rw [hself]
    show (m₂.inodeAt f).inode.blocks + 1 = (m₂.inodeAt f).nblks + 1
    rw [hblocks, hc.blocks, hnblks]
  · have hle := hc.size
    rw [hself]
    show (m₂.inodeAt f).inode.size + size ≤ 4096 * ((m₂.inodeAt f).nblks + 1)
    omega
  · rw [hself]
    exact htype.symm ▸ hc.type
  · rw [hself]
    exact hnlinks.symm ▸ hc.nlinks

/-- The counts of the other inodes -/
theorem counts_ne (he : Entered f k ino m m₂) (hc : m.Counts g) (hg : g ≠ f) : (m₂.counted f size).Counts g := by
  have hp := he.plain_ne hg size
  have hn := congrArg (·.nblks) hp
  have hb := congrArg (·.inode.blocks) hp
  have hs := congrArg (·.inode.size) hp
  have ht := congrArg (·.inode.type) hp
  have hl := congrArg (·.inode.nlinks) hp
  simp only [CacheInode.plain] at hn hb hs ht hl
  refine ⟨fun j => ?_, hn ▸ hc.nblks_le, ?_, ?_, ht ▸ hc.type, hl ▸ hc.nlinks⟩
  · rw [val_counted, he.data_ne fun hand => hg hand.1, hn]
    exact hc.dense j
  · rw [hb, hn]
    exact hc.blocks
  · rw [hs, hn]
    exact hc.size

theorem inv (he : Entered f (m.inodeAt f).nblks ino m m₂) (h : m.Inv) (hf : m.IsInode f) (hino : ino ≠ 0)
    (hlt : (m.inodeAt f).nblks < 32768) (hsize : size ≤ 4096) : (m₂.counted f size).Inv := by
  have hinode : ∀ g, (m₂.counted f size).IsInode g ↔ m.IsInode g := by
    intro g
    rw [IsInode, show (m₂.counted f size).inodes = m.inodes from he.inodes]
    exact Iff.rfl
  refine ⟨he.owned.of_val rfl rfl rfl rfl rfl (val_counted m₂ f size), fun g => ?_, fun g hg => ?_, (hinode _).mpr h.root⟩
  · by_cases hg : g = f
    · subst hg
      exact he.counts_self (h.counts g) hino hlt hsize
    · exact he.counts_ne (h.counts g) hg
  · have hg' : ¬ m.IsInode g := fun hx => hg ((hinode g).mpr hx)
    have hne : g ≠ f := by
      rintro rfl
      exact hg' hf
    have hn := congrArg (·.nblks) (he.plain_ne hne size)
    simp only [CacheInode.plain] at hn
    refine ⟨hn ▸ (h.outside g hg').1, fun t => ?_⟩
    rw [val_counted, he.outside g hne]
    exact (h.outside g hg').2 t

end Entered

theorem appendBlock_appended (h : m.Inv) (hf : m.IsInode f) (hu : m.Unused ino)
    (hrun : appendBlock f size ino m = .ok () m') : Appended f size ino m m' := by
  unfold appendBlock at hrun
  by_cases hsize : size ≤ sfsBlksize
  case neg =>
    rw [Proc.check_bind_neg hsize] at hrun
    cases hrun
  rw [Proc.check_bind_pos hsize, Proc.get_bind] at hrun
  by_cases hbig : sfsLnNblks ≤ (m.inodeAt f).nblks
  · rw [if_pos hbig] at hrun
    cases hrun
  rw [if_neg hbig] at hrun
  have hlt : (m.inodeAt f).nblks < 32768 := Nat.lt_of_not_le hbig
  obtain ⟨_, m₂, hent, hrun⟩ := Proc.bind_eq_ok.mp hrun
  obtain rfl : m₂.counted f size = m' := by
    injection hrun
  have hz : m.val f (.data (m.inodeAt f).nblks) = 0 := by
    by_contra hne
    exact Nat.lt_irrefl _ (((h.counts f).dense _).mp hne)
  have he := appendEntry_entered h.owned hu rfl hlt hz hent
  have hplain := he.plain f
  have hself := inodeAt_counted_self m₂ f size
  refine ⟨he.inv h hf hu.ne_zero hlt hsize, hsize, he.ninos, he.img, he.entry, he.inodes, fun g hg => he.plain_ne hg size, ?_, ?_, ?_, ?_,
    ?_, fun g j hj => ?_, fun b hb hne => ?_⟩
  · rw [hself]
    show (m₂.inodeAt f).nblks + 1 = _
    rw [show (m₂.inodeAt f).nblks = _ from congrArg (·.nblks) hplain]
    rfl
  · rw [hself]
    show (m₂.inodeAt f).inode.size + size = _
    rw [show (m₂.inodeAt f).inode.size = _ from congrArg (·.inode.size) hplain]
    rfl
  · rw [hself]
    exact congrArg (·.inode.type) hplain
  · rw [hself]
    exact congrArg (·.real) hplain
  · rw [val_counted]
    exact he.slot
  · rw [val_counted]
    refine he.data_ne ?_
    rintro ⟨rfl, rfl⟩
    exact Nat.lt_irrefl _ hj
  · exact (he.unused b hb hne).of_val rfl rfl rfl (val_counted m₂ f size)

end Mksfs

end Ucore
