import Mathlib.Algebra.GroupWithZero.Nat
import Ucore.Tools.Correctness.Append

/-!
# `Tools.Correctness.MkRun` — what a run of `mksfs` puts into the image

Every step of the walk keeps `Mksfs.Inv`. A file gets its blocks when it is made, a directory one block for
each `add_entry`; nothing else changes the content of a file (`Same`).
-/

namespace Ucore

/-- A block with the first `len` bytes of `data`, filled up with zeros. -/
def padBlock (data : Bytes) (len : Nat) : Bytes := memcpy (fun _ => 0) 0 data 0 len

namespace Mksfs

variable {m m' : Mksfs} {f g b size len : Nat} {x : Bytes}

def setImg (m : Mksfs) (b : Nat) (x : Bytes) : Mksfs := { m with img := Function.update m.img b x }

theorem sfsAllocIno_ok (h : sfsAllocIno m = .ok b m') : m.nextIno < m.ninos ∧ b = m.nextIno ∧ m' = m.take := by
  unfold sfsAllocIno at h
  rw [Proc.get_bind] at h
  by_cases hlt : m.nextIno < m.ninos
  · rw [if_pos hlt] at h
    injection h with h1 h2
    exact ⟨hlt, h1.symm, h2.symm⟩
  · rw [if_neg hlt] at h
    cases h

theorem writeBlock_ok (h : writeBlock x len b m = .ok () m') : len ≤ 4096 ∧ m' = m.setImg b (padBlock x len) := by
  unfold writeBlock at h
  rw [Proc.get_bind] at h
  by_cases hc : len ≤ sfsBlksize ∧ b < m.ninos
  · rw [Proc.check_bind_pos hc] at h
    injection h with h1 h2
    exact ⟨hc.1, h2.symm⟩
  · rw [Proc.check_bind_neg hc] at h
    cases h

/-! ## Content -/

theorem content_length (m : Mksfs) (f : Nat) : (m.content f).length = (m.inodeAt f).nblks := by
  rw [content, List.length_map, List.length_range]

theorem content_congr (hn : (m'.inodeAt f).nblks = (m.inodeAt f).nblks)
    (hk : ∀ k, k < (m.inodeAt f).nblks → m'.img (m'.val f (.data k)) = m.img (m.val f (.data k))) :
    m'.content f = m.content f := by
  rw [content, content, hn]
  refine List.map_congr_left fun k hmem => ?_
  exact hk k (List.mem_range.mp hmem)

/-- An unused block may be written. -/
theorem content_setImg (hb : m.Unused b) (x : Bytes) (f : Nat) : (m.setImg b x).content f = m.content f :=
  content_congr rfl fun k _ => by
    have hval : (m.setImg b x).val f (.data k) = m.val f (.data k) := val_setImg m _ f _
    rw [hval]
    exact Function.update_of_ne (hb.val f (.data k)) _ _

theorem Appended.content_self {ino : Nat} (h : Appended f size ino m m') : m'.content f = m.content f ++ [m.img ino] := by
  rw [content, content, h.nblks, List.range_succ, List.map_append, List.map_singleton, h.slot, h.img]
  refine congrArg (· ++ [m.img ino]) (List.map_congr_left fun k hmem => ?_)
  rw [h.data f k (List.mem_range.mp hmem)]

theorem Appended.content_other {ino : Nat} (h : Appended f size ino m m') (hg : g ≠ f) : m'.content g = m.content g :=
  content_congr (congrArg (·.nblks) (h.plain g hg)) fun k hk => by rw [h.data g k hk, h.img]

/-- The file is as it was. -/
structure Same (g : Nat) (m m' : Mksfs) : Prop where
  content : m'.content g = m.content g
  size : (m'.inodeAt g).inode.size = (m.inodeAt g).inode.size
  type : (m'.inodeAt g).inode.type = (m.inodeAt g).inode.type

theorem Same.refl (g : Nat) (m : Mksfs) : Same g m m := ⟨rfl, rfl, rfl⟩

theorem Same.trans (h : Same g m m') {m'' : Mksfs} (h' : Same g m' m'') : Same g m m'' :=
  ⟨h'.content.trans h.content, h'.size.trans h.size, h'.type.trans h.type⟩

/-! ## One more block -/

/-- The file `f` has got the block `x` with `size` bytes. -/
structure Gained (f size : Nat) (x : Bytes) (m m' : Mksfs) : Prop where
  inv : m'.Inv
  ninos : m'.ninos = m.ninos
  inodes : m'.inodes = m.inodes
  entry : m'.entry = m.entry
  content : m'.content f = m.content f ++ [x]
  bytes : (m'.inodeAt f).inode.size = (m.inodeAt f).inode.size + size
  type : (m'.inodeAt f).inode.type = (m.inodeAt f).inode.type
  other : ∀ g, g ≠ f → Same g m m'

theorem content_take (m : Mksfs) (f : Nat) : m.take.content f = m.content f :=
  content_congr rfl fun _ _ => congrArg m.img (val_take m f _)

theorem Inv.take (h : m.Inv) (hlt : m.nextIno < m.ninos) : m.take.Inv where
  owned := h.owned.take hlt
  counts := fun f => by
    obtain ⟨h1, h2, h3, h4, h5, h6⟩ := h.counts f
    refine ⟨fun k => ?_, h2, h3, h4, h5, h6⟩
    rw [val_take]
    exact h1 k
  outside := fun f hf => ⟨(h.outside f hf).1, fun s => (val_take m f s).trans ((h.outside f hf).2 s)⟩
  root := h.root

theorem Inv.of_val (h : m.Inv) (hsuper : m'.super = m.super) (hninos : m'.ninos = m.ninos)
    (hnext : m'.nextIno = m.nextIno) (hinodes : m'.inodes = m.inodes) (hblocks : m'.blocks = m.blocks)
    (hcounts : ∀ g, (m'.inodeAt g).nblks = (m.inodeAt g).nblks ∧ (m'.inodeAt g).inode.blocks = (m.inodeAt g).inode.blocks ∧
      (m'.inodeAt g).inode.size = (m.inodeAt g).inode.size ∧ (m'.inodeAt g).inode.type = (m.inodeAt g).inode.type ∧
      (m'.inodeAt g).inode.nlinks < 2 ^ 16)
    (hval : ∀ g t, m'.val g t = m.val g t) : m'.Inv where
  owned := h.owned.of_val hsuper hninos hnext hinodes hblocks hval
  counts := fun g => by
    obtain ⟨hn, hb, hs, ht, hl⟩ := hcounts g
    obtain ⟨h1, h2, h3, h4, h5, -⟩ := h.counts g
    refine ⟨fun k => ?_, hn ▸ h2, ?_, ?_, ht ▸ h5, hl⟩
    · rw [hval, hn]
      exact h1 k
    · rw [hb, hn]
      exact h3
    · rw [hs, hn]
      exact h4
  outside := fun g hg => by
    have hg' : ¬ m.IsInode g := fun hx => hg (by rw [IsInode, hinodes]; exact hx)
    exact ⟨(hcounts g).1.trans (h.outside g hg').1, fun t => (hval g t).trans ((h.outside g hg').2 t)⟩
  root := by
    rw [IsInode, hinodes]
    exact h.root

theorem Inv.setImg (h : m.Inv) (b : Nat) (x : Bytes) : (m.setImg b x).Inv :=
  h.of_val rfl rfl rfl rfl rfl (fun g => ⟨rfl, rfl, rfl, rfl, (h.counts g).nlinks⟩) (val_setImg m _)

/-- `sfs_alloc_ino`, `write_block` and `append_block` in a row. -/
theorem gained (h : m.Inv) (hf : m.IsInode f) (hrun : (do
      let ino ← sfsAllocIno
      writeBlock x len ino
      appendBlock f size ino) m = .ok () m') : Gained f size (padBlock x len) m m' ∧ len ≤ 4096 ∧ size ≤ 4096 := by
  obtain ⟨ino, m₁, halloc, hrun⟩ := Proc.bind_eq_ok.mp hrun
  obtain ⟨_, m₂, hwrite, hrun⟩ := Proc.bind_eq_ok.mp hrun
  obtain ⟨hlt, rfl, rfl⟩ := sfsAllocIno_ok halloc
  obtain ⟨hlen, rfl⟩ := writeBlock_ok hwrite
  have hu := h.owned.unused_take
  have hu' : (m.take.setImg m.nextIno (padBlock x len)).Unused m.nextIno := hu.of_val rfl rfl rfl (val_setImg _ _)
  have ha := appendBlock_appended ((h.take hlt).setImg _ _) hf hu' hrun
  have hold : ∀ g, (m.take.setImg m.nextIno (padBlock x len)).content g = m.content g := fun g => by
    rw [content_setImg hu, content_take]
  refine ⟨⟨ha.inv, ha.ninos, ha.inodes, ha.entry, ?_, ha.bytes, ha.type, fun g hg => ⟨?_, ?_, ?_⟩⟩, hlen, ha.size_le⟩
  · rw [ha.content_self, hold]
    exact congrArg (m.content f ++ [·]) (Function.update_self _ _ _)
  · rw [ha.content_other hg, hold]
  · exact congrArg (·.inode.size) (ha.plain g hg)
  · exact congrArg (·.inode.type) (ha.plain g hg)

/-! ## A new inode -/

/-- An empty inode with number `b`. -/
def addInode (m : Mksfs) (b real type : Nat) : Mksfs :=
  { m with
    inodeAt := Function.update m.inodeAt b
      { inode := MkInode.empty type, real := real, nblks := 0, l1 := none, l2 := none }
    inodes := Function.update m.inodes (hash64 real) (b :: m.inodes (hash64 real)) }

theorem allocCacheInode_ok {real type : Nat} (h : allocCacheInode real 0 type m = .ok b m') :
    m.nextIno < m.ninos ∧ b = m.nextIno ∧ m' = m.take.addInode m.nextIno real type := by
  unfold allocCacheInode at h
  rw [if_neg (not_not_intro rfl)] at h
  obtain ⟨ino, m₁, halloc, hrun⟩ := Proc.bind_eq_ok.mp h
  obtain ⟨hlt, rfl, rfl⟩ := sfsAllocIno_ok halloc
  injection hrun with h1 h2
  exact ⟨hlt, h1.symm, h2.symm⟩

theorem hash64_lt (real : Nat) : hash64 real < 1024 := by
  unfold hash64 hash32
  omega

theorem isInode_addInode {real type : Nat} : (m.addInode b real type).IsInode g ↔ g = b ∨ m.IsInode g := by
  constructor
  · rintro ⟨k, hk⟩
    have hk' : g ∈ Function.update m.inodes (hash64 real) (b :: m.inodes (hash64 real)) k := hk
    by_cases he : k = hash64 real
    · subst he
      rw [Function.update_self, List.mem_cons] at hk'
      exact hk'.imp id fun hg => ⟨_, hg⟩
    · rw [Function.update_of_ne he] at hk'
      exact Or.inr ⟨k, hk'⟩
  · have hself : (m.addInode b real type).inodes (hash64 real) = b :: m.inodes (hash64 real) := Function.update_self _ _ _
    rintro (rfl | ⟨k, hk⟩)
    · refine ⟨hash64 real, ?_⟩
      rw [hself]
      exact List.mem_cons_self
    · refine ⟨k, ?_⟩
      by_cases he : k = hash64 real
      · subst he
        rw [hself]
        exact List.mem_cons_of_mem _ hk
      · have hother : (m.addInode b real type).inodes k = m.inodes k := Function.update_of_ne he _ _
        rw [hother]
        exact hk

/-- What making the inode `b` does. -/
structure Created (b type : Nat) (m m' : Mksfs) : Prop where
  inv : m'.Inv
  ninos : m'.ninos = m.ninos
  entry : m'.entry = m.entry
  isInode : ∀ g, m'.IsInode g ↔ g = b ∨ m.IsInode g
  fresh : ¬ m.IsInode b
  content : m'.content b = []
  size : (m'.inodeAt b).inode.size = 0
  type : (m'.inodeAt b).inode.type = type
  other : ∀ g, g ≠ b → Same g m m'

theorem created {real type : Nat} (h : m.Inv) (hlt : m.nextIno < m.ninos) (htype : type < 2 ^ 16) :
    Created m.nextIno type m (m.take.addInode m.nextIno real type) := by
  have hu := h.owned.unused_take
  have ht := h.take hlt
  have hself : (m.take.addInode m.nextIno real type).inodeAt m.nextIno =
      { inode := MkInode.empty type, real := real, nblks := 0, l1 := none, l2 := none } := Function.update_self _ _ _
  have hother : ∀ g, g ≠ m.nextIno → (m.take.addInode m.nextIno real type).inodeAt g = m.inodeAt g := fun g hg =>
    Function.update_of_ne hg _ _
  have hval : ∀ g t, (m.take.addInode m.nextIno real type).val g t = m.take.val g t := by
    intro g t
    by_cases hg : g = m.nextIno
    · -- neither the number nor the empty inode names any block
      subst hg
      rw [(ht.outside _ hu.inode).2, val, hself]
      cases t <;> rfl
    · rw [val, hother g hg]
      cases t <;> rfl
  have hinode : ∀ g, (m.take.addInode m.nextIno real type).IsInode g ↔ g = m.nextIno ∨ m.IsInode g := fun g =>
    isInode_addInode
  have ho := ht.owned
  obtain ⟨h1, h2, h3, h4, h5⟩ := ho.super
  refine ⟨⟨⟨⟨h1, h2, h3, h4, h5⟩, fun g t hne => ?_, fun g t g' t' he hne => ?_, fun x hx => ?_, fun x g t hx => ?_,
    fun k x hx => ?_, fun k x hx => ?_, fun g t hs hne => ?_⟩, fun g => ?_, fun g hg => ?_, ?_⟩, rfl, rfl, hinode, hu.inode, ?_,
    ?_, ?_, fun g hg => ⟨?_, ?_, ?_⟩⟩
  · rw [hval] at hne ⊢
    exact ho.range g t hne
  · rw [hval] at he hne
    rw [hval] at he
    exact ho.inj g t g' t' he hne
  · rcases (hinode x).mp hx with rfl | hx
    · exact Or.inr ⟨hu.first_le, hu.lt⟩
    · exact ho.inode_range x hx
  · rw [hval]
    rcases (hinode x).mp hx with rfl | hx
    · exact hu.val g t
    · exact ho.inode_apart x g t hx
  · by_cases he : k = hash64 real
    · rw [he]
      exact hash64_lt real
    · have hx' : x ∈ Function.update m.inodes (hash64 real) (m.nextIno :: m.inodes (hash64 real)) k := hx
      rw [Function.update_of_ne he] at hx'
      exact ho.inode_list k x hx'
  · obtain ⟨hk, g, t, hs, hv, hz⟩ := ho.cached k x hx
    exact ⟨hk, g, t, hs, (hval g t).trans hv, hz⟩
  · rw [hval] at hne ⊢
    exact ho.listed g t hs hne
  · by_cases hg : g = m.nextIno
    · have hzero : ∀ s, m.take.val g s = 0 := hg ▸ (ht.outside _ hu.inode).2
      refine ⟨fun k => ?_, ?_, ?_, ?_, ?_, ?_⟩ <;> rw [hg, hself]
      · rw [hval, ← hg]
        exact iff_of_false (not_not_intro (hzero _)) (Nat.not_lt_zero k)
      · exact Nat.zero_le _
      · rfl
      · exact Nat.zero_le _
      · exact htype
      · exact Nat.two_pow_pos 16
    · obtain ⟨hc1, hc2, hc3, hc4, hc5, hc6⟩ := h.counts g
      refine ⟨fun k => ?_, ?_, ?_, ?_, ?_, ?_⟩ <;> rw [hother g hg]
      · rw [hval, val_take]
        exact hc1 k
      · exact hc2
      · exact hc3
      · exact hc4
      · exact hc5
      · exact hc6
  · have hg' : g ≠ m.nextIno ∧ ¬ m.IsInode g := not_or.mp fun hx => hg ((hinode g).mpr hx)
    refine ⟨?_, fun t => ?_⟩
    · rw [hother g hg'.1]
      exact (h.outside g hg'.2).1
    · rw [hval, val_take]
      exact (h.outside g hg'.2).2 t
  · exact (hinode _).mpr (Or.inr h.root)
  · rw [content, hself]
    rfl
  · rw [hself]
    rfl
  · rw [hself]
    rfl
  · refine content_congr (congrArg (·.nblks) (hother g hg)) fun k _ => ?_
    rw [hval, val_take]
    rfl
  · rw [hother g hg]
  · rw [hother g hg]

/-! ## Files -/

/-- The blocks that `open_file` makes of the results of `read`. -/
def readBlocks (reads : List (List UInt8)) : List Bytes := reads.map fun buffer => padBlock (strBytes buffer) buffer.length

/-- Every `read` but the last one fills its buffer. -/
def FullButLast (last : Nat) : List (List UInt8) → Prop
  | []             => True
  | buffer :: rest => last = 4096 ∧ FullButLast buffer.length rest

/-- The file `f` has got the data of `reads`. -/
structure Opened (f last : Nat) (reads : List (List UInt8)) (m m' : Mksfs) : Prop where
  inv : m'.Inv
  ninos : m'.ninos = m.ninos
  inodes : m'.inodes = m.inodes
  content : m'.content f = m.content f ++ readBlocks reads
  size : (m'.inodeAt f).inode.size = (m.inodeAt f).inode.size + (reads.map List.length).sum
  type : (m'.inodeAt f).inode.type = (m.inodeAt f).inode.type
  other : ∀ g, g ≠ f → Same g m m'
  full : FullButLast last reads

theorem openFile_opened (reads : List (List UInt8)) : ∀ {last : Nat} {m : Mksfs}, m.Inv → m.IsInode f →
    openFile f last reads m = .ok () m' → Opened f last reads m m' := by
  induction reads with
  | nil =>
    intro last m h hf hrun
    injection hrun with _ heq
    subst heq
    exact ⟨h, rfl, rfl, (List.append_nil _).symm, rfl, rfl, fun g _ => .refl g m, trivial⟩
  | cons buffer rest ih =>
    intro last m h hf hrun
    unfold openFile at hrun
    by_cases hlast : last = sfsBlksize
    case neg =>
      rw [Proc.check_bind_neg hlast] at hrun
      cases hrun
    rw [Proc.check_bind_pos hlast] at hrun
    -- one round, and the rest of the loop
    obtain ⟨ino, m₁, halloc, hrun⟩ := Proc.bind_eq_ok.mp hrun
    obtain ⟨_, m₂, hwrite, hrun⟩ := Proc.bind_eq_ok.mp hrun
    obtain ⟨_, m₃, happend, hrun⟩ := Proc.bind_eq_ok.mp hrun
    have hround : (do
        let ino ← sfsAllocIno
        writeBlock (strBytes buffer) buffer.length ino
        appendBlock f buffer.length ino) m = .ok () m₃ := by
      rw [Proc.bind_ok halloc, Proc.bind_ok hwrite, happend]
    obtain ⟨hg, -⟩ := gained h hf hround
    have hf' : m₃.IsInode f := by
      rw [IsInode, hg.inodes]
      exact hf
    have hrest := ih hg.inv hf' hrun
    refine ⟨hrest.inv, hrest.ninos.trans hg.ninos, hrest.inodes.trans hg.inodes, ?_, ?_, hrest.type.trans hg.type,
      fun g hne => (hg.other g hne).trans (hrest.other g hne), hlast, hrest.full⟩
    · rw [hrest.content, hg.content, List.append_assoc]
      rfl
    · rw [hrest.size, hg.bytes, List.map_cons, List.sum_cons, Nat.add_assoc]

/-! ## Directory entries -/

/-- The block is a directory entry for `name`, as far as it has been written: 256 bytes. -/
structure EntryBlock (x : Bytes) (name : List UInt8) (ino : Nat) : Prop where
  ino : getLe x 0 4 = ino
  name : ∀ j, j ≤ name.length → j < 252 → x (4 + j) = strBytes name j
  rest : ∀ j, 256 ≤ j → x j = 0

theorem entryBlock_store {entry : Bytes} {ino : Nat} (name : List UInt8) (h : ino < 2 ^ 32) :
    EntryBlock (padBlock (entryStore entry ino name) sfsDentrySize) name ino := by
  have hin : ∀ j, j < 256 → padBlock (entryStore entry ino name) sfsDentrySize j = entryStore entry ino name j := by
    intro j hj
    have hj' : 0 ≤ j ∧ j < 0 + sfsDentrySize := ⟨Nat.zero_le j, by rw [Nat.zero_add]; exact hj⟩
    rw [padBlock, memcpy_in hj', Nat.zero_add, Nat.sub_zero]
  refine ⟨?_, fun j hj hlt => ?_, fun j hj => ?_⟩
  · rw [getLe_congr fun i _ hi => hin i (by omega), entryStore, getLe_memcpy_out (by omega), getLe_putLe]
    exact Nat.mod_eq_of_lt h
  · rw [hin _ (by omega), entryStore, memcpy_in (by omega), Nat.zero_add, Nat.add_sub_cancel_left]
  · have hj' : ¬ (0 ≤ j ∧ j < 0 + sfsDentrySize) := fun hc => by
      have hc' : j < 0 + 256 := hc.2
      omega
    rw [padBlock, memcpy_out hj']

/-- The directory `current` has got an entry. -/
structure EntryAdded (current file : Nat) (name : List UInt8) (m m' : Mksfs) : Prop where
  inv : m'.Inv
  ninos : m'.ninos = m.ninos
  inodes : m'.inodes = m.inodes
  content : ∃ x, m'.content current = m.content current ++ [x] ∧ EntryBlock x name file
  isDir : (m.inodeAt current).inode.type = sfsTypeDir
  length : name.length ≤ 255
  type : (m'.inodeAt current).inode.type = (m.inodeAt current).inode.type
  other : ∀ g, g ≠ current → Same g m m'

theorem Owned.inode_lt (h : m.Owned) (hf : m.IsInode f) : f < 2 ^ 32 := by
  have hsum := h.super.unused
  have hle := h.super.ninos_le
  rcases h.inode_range f hf with h1 | h2 <;> omega

/-- `file->inode.nlinks ++` -/
def addLink (m : Mksfs) (file : Nat) : Mksfs :=
  m.setNode file { m.inodeAt file with inode := { (m.inodeAt file).inode with
    nlinks := ((m.inodeAt file).inode.nlinks + 1) % 2 ^ 16 } }

/-- Only the link count changes. -/
theorem inodeAt_addLink (m : Mksfs) (file g : Nat) : (m.addLink file).inodeAt g =
    { m.inodeAt g with inode := { (m.inodeAt g).inode with
      nlinks := if g = file then ((m.inodeAt g).inode.nlinks + 1) % 2 ^ 16 else (m.inodeAt g).inode.nlinks } } := by
  by_cases hg : g = file
  · subst hg
    rw [if_pos rfl]
    exact inodeAt_setNode_self m g _
  · rw [if_neg hg]
    exact inodeAt_setNode_of_ne _ hg

theorem val_addLink (m : Mksfs) (file g : Nat) (t : MkSlot) : (m.addLink file).val g t = m.val g t :=
  @val_setNode m file { m.inodeAt file with inode := { (m.inodeAt file).inode with
    nlinks := ((m.inodeAt file).inode.nlinks + 1) % 2 ^ 16 } } rfl rfl rfl g t

theorem Inv.addLink (h : m.Inv) (file : Nat) : (m.addLink file).Inv := by
  refine h.of_val rfl rfl rfl rfl rfl (fun g => ?_) (val_addLink m file)
  rw [inodeAt_addLink]
  refine ⟨rfl, rfl, rfl, rfl, ?_⟩
  show (if g = file then ((m.inodeAt g).inode.nlinks + 1) % 2 ^ 16 else (m.inodeAt g).inode.nlinks) < 2 ^ 16
  split
  · exact Nat.mod_lt _ (Nat.two_pow_pos 16)
  · exact (h.counts g).nlinks

theorem same_addLink (m : Mksfs) (file g : Nat) : Same g m (m.addLink file) := by
  refine ⟨content_congr ?_ fun k _ => ?_, ?_, ?_⟩
  · rw [inodeAt_addLink]
  · rw [val_addLink]
    rfl
  · rw [inodeAt_addLink]
  · rw [inodeAt_addLink]

theorem addEntry_added {current file : Nat} {name : List UInt8} (h : m.Inv) (hcur : m.IsInode current)
    (hfile : m.IsInode file) (hrun : addEntry current file name m = .ok () m') : EntryAdded current file name m m' := by
  unfold addEntry at hrun
  rw [Proc.get_bind] at hrun
  by_cases hcheck : (m.inodeAt current).inode.type = sfsTypeDir ∧ name.length ≤ sfsMaxFnameLen
  case neg =>
    rw [Proc.check_bind_neg hcheck] at hrun
    cases hrun
  rw [Proc.check_bind_pos hcheck] at hrun
  dsimp only at hrun
  rw [Proc.put_bind] at hrun
  obtain ⟨ino, m₁, halloc, hrun⟩ := Proc.bind_eq_ok.mp hrun
  obtain ⟨_, m₂, hwrite, hrun⟩ := Proc.bind_eq_ok.mp hrun
  obtain ⟨_, m₃, happend, hrun⟩ := Proc.bind_eq_ok.mp hrun
  obtain rfl : m₃.addLink file = m' := by
    injection hrun
  -- the static buffer is no part of the invariant
  have hval : ∀ g t, { m with entry := entryStore m.entry file name }.val g t = m.val g t := by
    intro g t
    cases t <;> rfl
  have hstart : ({ m with entry := entryStore m.entry file name } : Mksfs).Inv :=
    h.of_val rfl rfl rfl rfl rfl (fun g => ⟨rfl, rfl, rfl, rfl, (h.counts g).nlinks⟩) hval
  have hold : ∀ g, { m with entry := entryStore m.entry file name }.content g = m.content g := fun g =>
    content_congr rfl fun k _ => congrArg m.img (hval g _)
  have hround : (do
      let ino ← sfsAllocIno
      writeBlock (entryStore m.entry file name) sfsDentrySize ino
      appendBlock current sfsDentrySize ino) { m with entry := entryStore m.entry file name } = .ok () m₃ := by
    rw [Proc.bind_ok halloc, Proc.bind_ok hwrite, happend]
  obtain ⟨hg, -⟩ := gained hstart hcur hround
  have hlink := same_addLink m₃ file
  have hentry := @entryBlock_store m.entry file name (h.owned.inode_lt hfile)
  refine ⟨hg.inv.addLink file, hg.ninos, hg.inodes, ⟨_, ?_, hentry⟩, hcheck.1, hcheck.2, (hlink current).type.trans hg.type, fun g hne => ?_⟩
  · rw [(hlink current).content, hg.content, hold]
  · have hsame := hg.other g hne
    have hstep : Same g m m₃ := ⟨hsame.content.trans (hold g), hsame.size, hsame.type⟩
    exact hstep.trans (hlink g)

/-! ## Runs -/

end Mksfs

namespace MkOp

/-- What the walk is promised: `read` returns at most a buffer, `readlink` too; the pointers lead to inodes,
    and a name is a string. -/
def Given (m : Mksfs) : MkOp → Prop
  | .newDir _                   => True
  | .newFile _ reads            => ∀ buffer ∈ reads, 0 < buffer.length ∧ buffer.length ≤ 4096
  | .newLink _ target           => target.length ≤ 4096
  | .addEntry current file name => m.IsInode current ∧ m.IsInode file ∧ ∀ c ∈ name, c ≠ 0

/-- The entries that a step makes in the directory `dir`. -/
def added (dir : Nat) : MkOp → List (List UInt8 × Nat)
  | .addEntry current file name => if current = dir then [(name, file)] else []
  | _                           => []

end MkOp

/-- A walk that gets to its end. -/
inductive MkRuns : Mksfs → List MkOp → Mksfs → Prop where
  | nil {m : Mksfs} : MkRuns m [] m
  | cons {m m₁ m' : Mksfs} {op : MkOp} {ops : List MkOp} (hg : op.Given m) (hrun : op.run m = .ok () m₁)
      (h : MkRuns m₁ ops m') : MkRuns m (op :: ops) m'

namespace Mksfs

variable {op : MkOp} {ops : List MkOp}

/-- What a step does to the files there are. -/
structure Walked (op : MkOp) (m m' : Mksfs) : Prop where
  inv : m'.Inv
  ninos : m'.ninos = m.ninos
  isInode : ∀ g, m.IsInode g → m'.IsInode g
  type : ∀ g, m.IsInode g → (m'.inodeAt g).inode.type = (m.inodeAt g).inode.type
  other : ∀ g, m.IsInode g → (m.inodeAt g).inode.type ≠ sfsTypeDir → Same g m m'
  entries : ∀ g, (m'.IsInode g → (m'.inodeAt g).inode.type = sfsTypeDir) →
    ∃ l, m'.content g = m.content g ++ l ∧ List.Forall₂ (fun x e => EntryBlock x e.1 e.2) l (op.added g)

/-- A new inode changes none of the files. -/
theorem Created.walked {type : Nat} {m₁ : Mksfs} (hinv : m.Inv) (hc : Created b type m m₁) (h' : m'.Inv) (hninos : m'.ninos = m₁.ninos)
    (hinodes : m'.inodes = m₁.inodes) (hother : ∀ g, g ≠ b → Same g m₁ m')
    (hself : (m'.inodeAt b).inode.type = sfsTypeDir → m'.content b = []) (hadd : ∀ g, op.added g = []) :
    Walked op m m' := by
  have hisInode : ∀ g, m'.IsInode g ↔ m₁.IsInode g := fun g => by rw [IsInode, IsInode, hinodes]
  have hne : ∀ {g}, m.IsInode g → g ≠ b := by
    rintro g hg rfl
    exact hc.fresh hg
  have hsame : ∀ {g}, g ≠ b → Same g m m' := fun {g} hg => (hc.other g hg).trans (hother g hg)
  refine ⟨h', hninos.trans hc.ninos, fun g hg => (hisInode g).mpr ((hc.isInode g).mpr (Or.inr hg)),
    fun g hg => (hsame (hne hg)).type, fun g hg _ => hsame (hne hg), fun g hdir => ⟨[], ?_, ?_⟩⟩
  · rw [List.append_nil]
    by_cases hg : g = b
    · subst hg
      have hin : m'.IsInode g := (hisInode g).mpr ((hc.isInode g).mpr (Or.inl rfl))
      have hold : m.content g = [] := by
        rw [Mksfs.content, (hinv.outside g hc.fresh).1]
        rfl
      rw [hself (hdir hin), hold]
    · exact (hsame hg).content
  · rw [hadd]
    exact .nil

/-- A step that changes no file. -/
theorem Walked.refl (h : m.Inv) (hadd : ∀ g, op.added g = []) : Walked op m m :=
  ⟨h, rfl, fun _ hg => hg, fun _ _ => rfl, fun g _ _ => .refl g m, fun g _ => ⟨[], (List.append_nil _).symm, by
    rw [hadd]
    exact .nil⟩⟩

/-- **One step.** -/
theorem walked (h : m.Inv) (hg : op.Given m) (hrun : op.run m = .ok () m') : Walked op m m' := by
  cases op with
  | newDir real =>
    rw [MkOp.run, Proc.get_bind] at hrun
    by_cases hs : searchCacheInode m real = none
    case neg =>
      rw [Proc.check_bind_neg hs] at hrun
      cases hrun
    rw [Proc.check_bind_pos hs] at hrun
    obtain ⟨b, m₁, halloc, hrun⟩ := Proc.bind_eq_ok.mp hrun
    obtain ⟨hlt, rfl, rfl⟩ := allocCacheInode_ok halloc
    injection hrun with _ heq
    subst heq
    have hc := @created m real sfsTypeDir h hlt (by decide)
    exact hc.walked h hc.inv rfl rfl (fun g _ => .refl g _) (fun _ => hc.content) fun _ => rfl
  | newFile real reads =>
    rw [MkOp.run, Proc.get_bind] at hrun
    by_cases hs : searchCacheInode m real = none
    · rw [if_pos hs] at hrun
      obtain ⟨b, m₁, halloc, hrun⟩ := Proc.bind_eq_ok.mp hrun
      obtain ⟨hlt, rfl, rfl⟩ := allocCacheInode_ok halloc
      have hc := @created m real sfsTypeFile h hlt (by decide)
      have ho := openFile_opened reads hc.inv ((hc.isInode _).mpr (Or.inl rfl)) hrun
      refine hc.walked h ho.inv ho.ninos ho.inodes ho.other (fun ht => ?_) fun _ => rfl
      rw [ho.type, hc.type] at ht
      exact absurd ht (by decide)
    · rw [if_neg hs] at hrun
      injection hrun with _ heq
      subst heq
      exact .refl h fun _ => rfl
  | newLink real target =>
    rw [MkOp.run] at hrun
    obtain ⟨b, m₁, halloc, hrun⟩ := Proc.bind_eq_ok.mp hrun
    obtain ⟨hlt, rfl, rfl⟩ := allocCacheInode_ok halloc
    have hc := @created m real sfsTypeLink h hlt (by decide)
    unfold openLink at hrun
    obtain ⟨ino, m₂, halloc', hrun⟩ := Proc.bind_eq_ok.mp hrun
    by_cases hlen : target.length = sfsBlksize
    · rw [if_pos hlen] at hrun
      cases hrun
    rw [if_neg hlen] at hrun
    have hround : (do
        let ino ← sfsAllocIno
        writeBlock (strBytes target) target.length ino
        appendBlock m.nextIno target.length ino) (m.take.addInode m.nextIno real sfsTypeLink) = .ok () m' := by
      rw [Proc.bind_ok halloc', hrun]
    obtain ⟨hgain, -⟩ := gained hc.inv ((hc.isInode _).mpr (Or.inl rfl)) hround
    refine hc.walked h hgain.inv hgain.ninos hgain.inodes hgain.other (fun ht => ?_) fun _ => rfl
    rw [hgain.type, hc.type] at ht
    exact absurd ht (by decide)
  | addEntry current file name =>
    obtain ⟨hcur, hfile, -⟩ := hg
    have ha := addEntry_added h hcur hfile hrun
    have hisInode : ∀ g, m'.IsInode g ↔ m.IsInode g := fun g => by rw [IsInode, IsInode, ha.inodes]
    have htype : ∀ g, (m'.inodeAt g).inode.type = (m.inodeAt g).inode.type := by
      intro g
      by_cases hgc : g = current
      · rw [hgc]
        exact ha.type
      · exact (ha.other g hgc).type
    refine ⟨ha.inv, ha.ninos, fun g hg => (hisInode g).mpr hg, fun g _ => htype g, fun g _ hdir => ha.other g ?_,
      fun g _ => ?_⟩
    · rintro rfl
      exact hdir ha.isDir
    · by_cases hgc : g = current
      · subst hgc
        obtain ⟨x, hx, hentry⟩ := ha.content
        refine ⟨[x], hx, ?_⟩
        rw [show MkOp.added g (.addEntry g file name) = [(name, file)] from if_pos rfl]
        exact .cons hentry .nil
      · refine ⟨[], ?_, ?_⟩
        · rw [List.append_nil]
          exact (ha.other g hgc).content
        · rw [show MkOp.added g (.addEntry current file name) = [] from if_neg (Ne.symm hgc)]
          exact .nil

/-! ## The whole walk -/

/-- What `create_sfs` makes of an image file of `size` bytes. -/
theorem createSfs_ok {img : Nat → Bytes} (h : createSfs size img = .ok m) : m.Inv ∧
    (∀ g, m.IsInode g → g = sfsBlknRoot) ∧ ∀ g, m.content g = [] := by
  unfold createSfs at h
  dsimp only at h
  set n := size / sfsBlksize % 2 ^ 32
  by_cases hn : (if sfsMaxNblks < n then sfsMaxNblks else n) ≤
      sfsBlknFreemap + ((if sfsMaxNblks < n then sfsMaxNblks else n) + sfsBlkbits - 1) / sfsBlkbits
  · rw [if_pos hn] at h
    cases h
  rw [if_neg hn] at h
  have hle : (if sfsMaxNblks < n then sfsMaxNblks else n) ≤ 2 ^ 19 := by
    unfold sfsMaxNblks
    split <;> omega
  generalize (if sfsMaxNblks < n then sfsMaxNblks else n) = ninos at h hn hle
  injection h with h
  have hinodes : ∀ k g, g ∈ m.inodes k ↔ k = hash64 0 ∧ g = sfsBlknRoot := by
    intro k g
    rw [← h]
    show g ∈ Function.update (fun _ => []) (hash64 0) [sfsBlknRoot] k ↔ _
    by_cases hk : k = hash64 0
    · subst hk
      rw [Function.update_self, List.mem_singleton, and_iff_right rfl]
    · rw [Function.update_of_ne hk]
      exact iff_of_false List.not_mem_nil fun hc => hk hc.1
  have hroot : ∀ g, m.IsInode g ↔ g = sfsBlknRoot := fun g =>
    ⟨fun ⟨k, hk⟩ => ((hinodes k g).mp hk).2, fun hg => ⟨hash64 0, (hinodes _ g).mpr ⟨rfl, hg⟩⟩⟩
  have hnode : ∀ g, ∃ type, m.inodeAt g = { inode := MkInode.empty type, real := 0, nblks := 0, l1 := none, l2 := none } ∧
      type < 2 ^ 16 := by
    intro g
    have hnodes : m.inodeAt = Function.update
        (fun _ => { inode := MkInode.empty 0, real := 0, nblks := 0, l1 := none, l2 := none }) sfsBlknRoot
        { inode := MkInode.empty sfsTypeDir, real := 0, nblks := 0, l1 := none, l2 := none } := by
      rw [← h]
    by_cases hg : g = sfsBlknRoot
    · refine ⟨sfsTypeDir, ?_, by decide⟩
      rw [hnodes, hg, Function.update_self]
    · refine ⟨0, ?_, by decide⟩
      rw [hnodes, Function.update_of_ne hg]
  have hval : ∀ g t, m.val g t = 0 := by
    intro g t
    obtain ⟨type, hg, -⟩ := hnode g
    rw [val, hg]
    cases t <;> rfl
  have hnblks : ∀ g, (m.inodeAt g).nblks = 0 := fun g => by
    obtain ⟨type, hg, -⟩ := hnode g
    rw [hg]
  have hblocks : ∀ k, m.blocks k = [] := fun k => by rw [← h]
  have hsuper : m.SuperOk := by
    have hn' : ¬ ninos ≤ 2 + (ninos + 32768 - 1) / 32768 := hn
    rw [← h]
    refine ⟨rfl, rfl, ?_, ?_, hle⟩
    · show ninos - (2 + (ninos + 32768 - 1) / 32768) + (2 + (ninos + 32768 - 1) / 32768) = ninos
      omega
    · exact Nat.le_refl _
  refine ⟨⟨⟨hsuper, fun g t hne => absurd (hval g t) hne, fun g t _ _ _ hne => absurd (hval g t) hne,
    fun g hg => Or.inl ((hroot g).mp hg), fun g x t hg => ?_, fun k g hg => ?_, fun k b hb => ?_,
    fun g t _ hne => absurd (hval g t) hne⟩, fun g => ⟨fun k => ?_, ?_, ?_, ?_, ?_, ?_⟩,
    fun g _ => ⟨hnblks g, hval g⟩, (hroot _).mpr rfl⟩, fun g => (hroot g).mp, fun g => ?_⟩
  · rw [hval, (hroot g).mp hg]
    decide
  · rw [((hinodes k g).mp hg).1]
    decide
  · rw [hblocks] at hb
    exact absurd hb List.not_mem_nil
  · rw [hval, hnblks]
    exact iff_of_false (not_not_intro rfl) (Nat.not_lt_zero k)
  · rw [hnblks]
    exact Nat.zero_le _
  · obtain ⟨type, hg, -⟩ := hnode g
    rw [hg]
    rfl
  · obtain ⟨type, hg, -⟩ := hnode g
    rw [hg]
    exact Nat.zero_le _
  · obtain ⟨type, hg, hlt⟩ := hnode g
    rw [hg]
    exact hlt
  · obtain ⟨type, hg, -⟩ := hnode g
    rw [hg]
    exact Nat.two_pow_pos 16
  · rw [content, hnblks]
    rfl

/-- A walk keeps the invariant, and never changes the type of an inode. -/
theorem runs_inv (hrun : MkRuns m ops m') (h : m.Inv) : m'.Inv ∧ m'.ninos = m.ninos ∧
    ∀ g, m.IsInode g → m'.IsInode g ∧ (m'.inodeAt g).inode.type = (m.inodeAt g).inode.type ∧
      ((m.inodeAt g).inode.type ≠ sfsTypeDir → Same g m m') := by
  induction hrun with
  | nil => exact ⟨h, rfl, fun g hg => ⟨hg, rfl, fun _ => .refl g _⟩⟩
  | cons hgiven hrun hrest ih =>
    have hw := walked h hgiven hrun
    obtain ⟨hinv, hninos, hfiles⟩ := ih hw.inv
    refine ⟨hinv, hninos.trans hw.ninos, fun g hg => ?_⟩
    obtain ⟨hin, htype, hsame⟩ := hfiles g (hw.isInode g hg)
    refine ⟨hin, htype.trans (hw.type g hg), fun hdir => (hw.other g hg hdir).trans (hsame ?_)⟩
    rw [hw.type g hg]
    exact hdir

/-- **The content of a directory** is what `add_entry` has put there. -/
theorem runs_entries (hrun : MkRuns m ops m') (h : m.Inv) {dir : Nat}
    (hdir : (m'.inodeAt dir).inode.type = sfsTypeDir) : ∃ l, m'.content dir = m.content dir ++ l ∧
      List.Forall₂ (fun x e => EntryBlock x e.1 e.2) l (ops.flatMap (MkOp.added dir)) := by
  induction hrun with
  | nil => exact ⟨[], (List.append_nil _).symm, .nil⟩
  | cons hgiven hrun hrest ih =>
    have hw := walked h hgiven hrun
    obtain ⟨-, -, hfiles⟩ := runs_inv hrest hw.inv
    obtain ⟨l, hl, hentries⟩ := hw.entries dir fun hin => (hfiles dir hin).2.1.symm.trans hdir
    obtain ⟨l', hl', hentries'⟩ := ih hw.inv hdir
    refine ⟨l ++ l', ?_, ?_⟩
    · rw [hl', hl, List.append_assoc]
    · rw [List.flatMap_cons]
      exact List.rel_append hentries hentries'

end Mksfs

end Ucore
