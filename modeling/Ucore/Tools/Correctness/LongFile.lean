import Ucore.Tools.Correctness.MkRun

/-!
# `Tools.Correctness.LongFile` — files that `mksfs` accepts

With room in the image, `open_file` takes a file of full blocks up to the first block behind the double
indirect pointer (`openFile_runs`): a file of 1037 blocks.
-/

namespace Ucore

namespace Mksfs

variable {m m' : Mksfs} {f n ino : Nat}

/-- The file `f` has `n` blocks, and the pointer to the cache of its index block is the one that fits. -/
structure Growing (m : Mksfs) (f n : Nat) : Prop where
  nblks : (m.inodeAt f).nblks = n
  fresh : n ≤ 12 → (m.inodeAt f).inode.indirect = 0
  linked : 12 < n → n ≤ 1036 → (m.inodeAt f).inode.indirect ≠ 0 ∧ (m.inodeAt f).l1 = some (m.inodeAt f).inode.indirect
  db : n ≤ 1036 → (m.inodeAt f).inode.dbIndirect = 0
  pos : 0 < m.nextIno

/-- What a step for the file `f` does that hands out at most `k` numbers. -/
structure Handed (f k : Nat) (m m' : Mksfs) : Prop where
  ninos : m'.ninos = m.ninos
  le : m.nextIno ≤ m'.nextIno
  nextIno : m'.nextIno ≤ m.nextIno + k
  other : ∀ g, g ≠ f → m'.inodeAt g = m.inodeAt g
  links : (m'.inodeAt f).inode.nlinks = (m.inodeAt f).inode.nlinks
  type : (m'.inodeAt f).inode.type = (m.inodeAt f).inode.type

theorem updateCache_new (cb : Option Nat) (h : m.nextIno < m.ninos) :
    updateCache cb 0 m = .ok m.nextIno (m.take.addCache m.nextIno) := by
  have halloc : sfsAllocIno m = .ok m.nextIno m.take := by
    unfold sfsAllocIno
    rw [Proc.get_bind, if_pos h]
    rfl
  unfold updateCache allocCacheBlock
  rw [if_pos rfl, if_neg (not_not_intro rfl), Proc.bind_ok halloc]
  rfl

theorem updateCache_same (h : ino ≠ 0) : updateCache (some ino) ino m = .ok ino m := by
  unfold updateCache
  rw [if_neg h, if_neg (not_not_intro rfl)]
  rfl

theorem Handed.refl (f : Nat) (m : Mksfs) : Handed f 0 m m := ⟨rfl, Nat.le_refl _, Nat.le_refl _, fun _ _ => rfl, rfl, rfl⟩

theorem Handed.trans {m'' : Mksfs} {j k : Nat} (h : Handed f j m m') (h' : Handed f k m' m'') : Handed f (j + k) m m'' := by
  have := h.le
  have := h.nextIno
  have := h'.le
  have := h'.nextIno
  exact ⟨h'.ninos.trans h.ninos, by omega, by omega, fun g hg => (h'.other g hg).trans (h.other g hg),
    h'.links.trans h.links, h'.type.trans h.type⟩

theorem Handed.mono {j k : Nat} (h : Handed f j m m') (hjk : j ≤ k) : Handed f k m m' :=
  ⟨h.ninos, h.le, Nat.le_trans h.nextIno (Nat.add_le_add_left hjk _), h.other, h.links, h.type⟩

theorem updateIndirect_runs (h : Growing m f n) (h12 : 12 ≤ n) (hn : n ≤ 1036) (hroom : m.nextIno + 1 ≤ m.ninos) :
    ∃ b m', updateIndirect f m = .ok b m' ∧ b ≠ 0 ∧ Handed f 1 m m' ∧ m'.inodeAt f =
      { m.inodeAt f with l1 := some b, inode := { (m.inodeAt f).inode with indirect := b } } := by
  have hpos := h.pos
  unfold updateIndirect
  rw [Proc.get_bind]
  dsimp only
  by_cases heq : n = 12
  · -- the first block behind the direct ones
    rw [h.fresh (by omega), Proc.bind_ok (updateCache_new _ (by omega))]
    refine ⟨m.nextIno, _, rfl, by omega, ⟨rfl, Nat.le_succ _, Nat.le_refl _, fun g hg => inodeAt_setNode_of_ne _ hg,
      congrArg (·.inode.nlinks) (inodeAt_setNode_self _ _ _), congrArg (·.inode.type) (inodeAt_setNode_self _ _ _)⟩, ?_⟩
    exact inodeAt_setNode_self _ _ _
  · obtain ⟨hne, hl1⟩ := h.linked (by omega) hn
    rw [hl1, Proc.bind_ok (updateCache_same hne)]
    refine ⟨_, _, rfl, hne, ⟨rfl, Nat.le_refl _, Nat.le_succ _, fun g hg => inodeAt_setNode_of_ne _ hg,
      congrArg (·.inode.nlinks) (inodeAt_setNode_self _ _ _), congrArg (·.inode.type) (inodeAt_setNode_self _ _ _)⟩, ?_⟩
    exact inodeAt_setNode_self _ _ _

theorem updateDbIndirect_runs (hz : (m.inodeAt f).inode.dbIndirect = 0) (hroom : m.nextIno + 1 ≤ m.ninos) :
    ∃ b m', updateDbIndirect f m = .ok b m' ∧ Handed f 1 m m' ∧ (m'.inodeAt f).nblks = (m.inodeAt f).nblks ∧
      m'.cacheAt b = fun _ => 0 := by
  unfold updateDbIndirect
  rw [Proc.get_bind]
  dsimp only
  rw [hz, Proc.bind_ok (updateCache_new _ (by omega))]
  refine ⟨m.nextIno, _, rfl, ⟨rfl, Nat.le_succ _, Nat.le_refl _, fun g hg => inodeAt_setNode_of_ne _ hg,
      congrArg (·.inode.nlinks) (inodeAt_setNode_self _ _ _), congrArg (·.inode.type) (inodeAt_setNode_self _ _ _)⟩, ?_, ?_⟩
  · exact congrArg (·.nblks) (inodeAt_setNode_self _ _ _)
  · exact cacheAt_addCache_self m.take m.nextIno

theorem updateDbEntry_runs {l2 : Nat} (i : Nat) (hz : m.cacheAt l2 = fun _ => 0) (hroom : m.nextIno + 1 ≤ m.ninos) :
    ∃ b m', updateDbEntry f l2 i m = .ok b m' ∧ Handed f 1 m m' ∧ (m'.inodeAt f).nblks = (m.inodeAt f).nblks := by
  have hent : getLe (m.cacheAt l2) (4 * i) 4 = 0 := getLe_zero fun j _ _ => congrFun hz j
  unfold updateDbEntry
  rw [Proc.get_bind, hent, Proc.bind_ok (updateCache_new _ (by omega))]
  refine ⟨m.nextIno, _, rfl, ⟨rfl, Nat.le_succ _, Nat.le_refl _, fun g hg => inodeAt_setNode_of_ne _ hg,
      congrArg (·.inode.nlinks) (inodeAt_setNode_self _ _ _), congrArg (·.inode.type) (inodeAt_setNode_self _ _ _)⟩, ?_⟩
  exact congrArg (·.nblks) (inodeAt_setNode_self _ _ _)

/-- The block is entered; what follows counts it. -/
theorem appendEntry_runs (h : Growing m f n) (hn : n ≤ 1036) (hroom : m.nextIno + 2 ≤ m.ninos) (ino : Nat) :
    ∃ m', appendEntry f ino m = .ok () m' ∧ Handed f 2 m m' ∧ (m'.inodeAt f).nblks = n ∧
      (n < 12 → (m'.inodeAt f).inode.indirect = 0) ∧
      (12 ≤ n → n < 1036 → (m'.inodeAt f).inode.indirect ≠ 0 ∧ (m'.inodeAt f).l1 = some (m'.inodeAt f).inode.indirect) ∧
      (n < 1036 → (m'.inodeAt f).inode.dbIndirect = 0) := by
  obtain rfl := h.nblks
  unfold appendEntry
  rw [Proc.get_bind]
  dsimp only
  by_cases h12 : (m.inodeAt f).nblks < 12
  · have hnode := inodeAt_setNode_self m f { m.inodeAt f with
      inode := { (m.inodeAt f).inode with direct := Function.update (m.inodeAt f).inode.direct ⟨_, h12⟩ ino } }
    rw [dif_pos h12]
    refine ⟨_, rfl, ⟨rfl, Nat.le_refl _, Nat.le_add_right .., fun g hg => inodeAt_setNode_of_ne _ hg,
      congrArg (·.inode.nlinks) (inodeAt_setNode_self _ _ _), congrArg (·.inode.type) (inodeAt_setNode_self _ _ _)⟩,
      congrArg (·.nblks) hnode, fun _ => ?_, fun _ _ => by omega,
      fun _ => ?_⟩
    · exact (congrArg (·.inode.indirect) hnode).trans (h.fresh (by omega))
    · exact (congrArg (·.inode.dbIndirect) hnode).trans (h.db (by omega))
  rw [dif_neg h12]
  by_cases h1036 : (m.inodeAt f).nblks < 1036
  · have hlt : (m.inodeAt f).nblks < sfsL1Nblks := h1036
    obtain ⟨b, m₁, hind, hb, hhand, hnode⟩ := updateIndirect_runs h (by omega) hn (by omega)
    rw [if_pos hlt, Proc.bind_ok hind]
    refine ⟨m₁.setEntry b ((m.inodeAt f).nblks - 12) ino, rfl, ⟨hhand.ninos, hhand.le, Nat.le_succ_of_le hhand.nextIno,
      hhand.other, hhand.links, hhand.type⟩, ?_⟩
    rw [show (m₁.setEntry b ((m.inodeAt f).nblks - 12) ino).inodeAt f = m₁.inodeAt f from rfl, hnode]
    exact ⟨rfl, fun _ => by omega, fun _ _ => ⟨hb, rfl⟩, fun _ => h.db hn⟩
  · have hge : ¬ (m.inodeAt f).nblks < sfsL1Nblks := h1036
    have hlt : (m.inodeAt f).nblks < sfsL2Nblks := by
      show (m.inodeAt f).nblks < 1024 * 1024 + (1024 + 12)
      omega
    obtain ⟨l2, m₁, hdb, hhand₁, hn₁, hcache⟩ := updateDbIndirect_runs (h.db hn) (by omega)
    have hle := hhand₁.nextIno
    have hninos := hhand₁.ninos
    obtain ⟨l1, m₂, hentry, hhand₂, hn₂⟩ := updateDbEntry_runs (f := f)
      (((m.inodeAt f).nblks - sfsL1Nblks) / sfsBlkNentry) hcache (by omega)
    rw [if_neg hge, if_pos hlt, Proc.bind_ok hdb, Proc.bind_ok hentry]
    refine ⟨m₂.setEntry l1 (((m.inodeAt f).nblks - sfsL1Nblks) % sfsBlkNentry) ino, rfl,
      ⟨(hhand₁.trans hhand₂).ninos, (hhand₁.trans hhand₂).le, (hhand₁.trans hhand₂).nextIno, (hhand₁.trans hhand₂).other,
        (hhand₁.trans hhand₂).links, (hhand₁.trans hhand₂).type⟩, ?_, ?_, ?_, ?_⟩
    · exact hn₂.trans hn₁
    · exact fun hlt => by omega
    · exact fun _ hlt => by omega
    · exact fun hlt => by omega

/-- One more block for the file. -/
theorem round_runs {x : Bytes} {len : Nat} (h : Growing m f n) (hn : n ≤ 1036) (hroom : m.nextIno + 3 ≤ m.ninos)
    (hlen : len ≤ 4096) : ∃ m', (do
      let ino ← sfsAllocIno
      writeBlock x len ino
      appendBlock f len ino) m = .ok () m' ∧ Handed f 3 m m' ∧ (n < 1036 → Growing m' f (n + 1)) := by
  have halloc : sfsAllocIno m = .ok m.nextIno m.take := by
    unfold sfsAllocIno
    rw [Proc.get_bind, if_pos (by omega)]
    rfl
  have hwrite : writeBlock x len m.nextIno m.take = .ok () (m.take.setImg m.nextIno (padBlock x len)) := by
    have hlt : m.nextIno < m.take.ninos := by
      show m.nextIno < m.ninos
      omega
    unfold writeBlock
    rw [Proc.get_bind, Proc.check_bind_pos ⟨hlen, hlt⟩]
    rfl
  have hgrow : Growing (m.take.setImg m.nextIno (padBlock x len)) f n :=
    ⟨h.nblks, h.fresh, h.linked, h.db, Nat.succ_pos _⟩
  have hroom' : (m.take.setImg m.nextIno (padBlock x len)).nextIno + 2 ≤ (m.take.setImg m.nextIno (padBlock x len)).ninos := by
    show m.nextIno + 1 + 2 ≤ m.ninos
    omega
  obtain ⟨m₁, happend, hhand, hnblks, hfresh, hlinked, hdb⟩ := appendEntry_runs hgrow hn hroom' m.nextIno
  have hsmall : ¬ sfsLnNblks ≤ ((m.take.setImg m.nextIno (padBlock x len)).inodeAt f).nblks := by
    have h32768 : sfsLnNblks = 32768 := rfl
    have := hgrow.nblks
    omega
  have hninos : m₁.ninos = m.ninos := hhand.ninos
  have hle : m.nextIno + 1 ≤ m₁.nextIno := hhand.le
  have hnext : m₁.nextIno ≤ m.nextIno + 1 + 2 := hhand.nextIno
  have hlen' : len ≤ sfsBlksize := hlen
  rw [Proc.bind_ok halloc, Proc.bind_ok hwrite]
  unfold appendBlock
  rw [Proc.check_bind_pos hlen', Proc.get_bind, if_neg hsmall, Proc.bind_ok happend, Proc.get_bind]
  have hnode := inodeAt_setNode_self m₁ f { m₁.inodeAt f with
    nblks := (m₁.inodeAt f).nblks + 1
    inode := { (m₁.inodeAt f).inode with
      size := (m₁.inodeAt f).inode.size + len, blocks := (m₁.inodeAt f).inode.blocks + 1 } }
  have hpos : 0 < m₁.nextIno := by omega
  have hmono : m.nextIno ≤ m₁.nextIno := by omega
  have hother : ∀ g, g ≠ f → m₁.inodeAt g = m.inodeAt g := hhand.other
  have hlinks : (m₁.inodeAt f).inode.nlinks = (m.inodeAt f).inode.nlinks := hhand.links
  have htype : (m₁.inodeAt f).inode.type = (m.inodeAt f).inode.type := hhand.type
  refine ⟨_, rfl, ⟨hninos, hmono, hnext, fun g hg => (inodeAt_setNode_of_ne _ hg).trans (hother g hg),
      (congrArg (·.inode.nlinks) hnode).trans hlinks, (congrArg (·.inode.type) hnode).trans htype⟩,
    fun hlt => ⟨?_, fun h12 => ?_, fun h12 hle => ?_, fun hle => ?_, hpos⟩⟩
  · exact (congrArg (·.nblks) hnode).trans (congrArg (· + 1) hnblks)
  · exact (congrArg (·.inode.indirect) hnode).trans (hfresh (by omega))
  · obtain ⟨hne, hl1⟩ := hlinked (by omega) hlt
    exact ⟨fun hz => hne ((congrArg (·.inode.indirect) hnode).symm.trans hz),
      (congrArg (·.l1) hnode).trans (hl1.trans (congrArg (some ·.inode.indirect) hnode).symm)⟩
  · exact (congrArg (·.inode.dbIndirect) hnode).trans (hdb hlt)

/-- **Room is enough** for a file of full blocks, up to one block too many for the kernel. -/
theorem openFile_runs (reads : List (List UInt8)) : ∀ {m : Mksfs} {n : Nat}, Growing m f n → n + reads.length ≤ 1037 →
    m.nextIno + 3 * reads.length ≤ m.ninos → (∀ buffer ∈ reads, buffer.length = 4096) →
    ∃ m', openFile f 4096 reads m = .ok () m' ∧ Handed f (3 * reads.length) m m' := by
  induction reads with
  | nil =>
    intro m n _ _ _ _
    exact ⟨m, rfl, .refl f m⟩
  | cons buffer rest ih =>
    intro m n h hn hroom hlen
    rw [List.length_cons] at hn hroom ⊢
    have hbuf := hlen buffer List.mem_cons_self
    obtain ⟨m₁, hround, hhand, hgrow⟩ := round_runs (x := strBytes buffer) h (by omega) (by omega) (Nat.le_of_eq hbuf)
    obtain ⟨ino, m₂, halloc, hrest⟩ := Proc.bind_eq_ok.mp hround
    obtain ⟨_, m₃, hwrite, happend⟩ := Proc.bind_eq_ok.mp hrest
    have hhand' := hhand.nextIno
    have hninos := hhand.ninos
    have hlast : 4096 = sfsBlksize := rfl
    unfold openFile
    rw [Proc.check_bind_pos hlast, Proc.bind_ok halloc, Proc.bind_ok hwrite, Proc.bind_ok happend, hbuf]
    by_cases hne : rest = []
    · subst hne
      exact ⟨m₁, rfl, hhand⟩
    · have hpos := List.length_pos_of_ne_nil hne
      obtain ⟨m', hrun, hhand₂⟩ := ih (hgrow (by omega)) (by omega) (by omega) fun b hb => hlen b (List.mem_cons_of_mem _ hb)
      exact ⟨m', hrun, (hhand.trans hhand₂).mono (by omega)⟩

/-- Room is enough for an entry, too. -/
theorem addEntry_runs {current file : Nat} {name : List UInt8} (h : Growing m current n) (hn : n ≤ 1036)
    (hroom : m.nextIno + 3 ≤ m.ninos) (htype : (m.inodeAt current).inode.type = sfsTypeDir) (hlen : name.length ≤ 255) :
    ∃ m', addEntry current file name m = .ok () m' ∧
      (m'.inodeAt file).inode.type = (m.inodeAt file).inode.type ∧
      (m'.inodeAt file).inode.nlinks = ((m.inodeAt file).inode.nlinks + 1) % 2 ^ 16 := by
  have hgrow : Growing { m with entry := entryStore m.entry file name } current n := ⟨h.nblks, h.fresh, h.linked, h.db, h.pos⟩
  obtain ⟨m₁, hround, hhand, -⟩ := @round_runs _ current n (entryStore m.entry file name) 256 hgrow hn hroom (by decide)
  obtain ⟨ino, m₂, halloc, hrest⟩ := Proc.bind_eq_ok.mp hround
  obtain ⟨_, m₃, hwrite, happend⟩ := Proc.bind_eq_ok.mp hrest
  have hsize : sfsDentrySize = 256 := rfl
  have hfile : (m₁.inodeAt file).inode.type = (m.inodeAt file).inode.type ∧
      (m₁.inodeAt file).inode.nlinks = (m.inodeAt file).inode.nlinks := by
    by_cases hne : file = current
    · subst hne
      exact ⟨hhand.type, hhand.links⟩
    · have heq : m₁.inodeAt file = m.inodeAt file := hhand.other file hne
      rw [heq]
      exact ⟨rfl, rfl⟩
  have hcheck : (m.inodeAt current).inode.type = sfsTypeDir ∧ name.length ≤ sfsMaxFnameLen := ⟨htype, hlen⟩
  unfold addEntry
  rw [Proc.get_bind, Proc.check_bind_pos hcheck]
  dsimp only
  rw [Proc.put_bind, hsize, Proc.bind_ok halloc, Proc.bind_ok hwrite, Proc.bind_ok happend, Proc.get_bind]
  refine ⟨m₁.addLink file, rfl, ?_, ?_⟩
  · rw [inodeAt_addLink]
    exact hfile.1
  · rw [inodeAt_addLink, if_pos rfl, hfile.2]

end Mksfs

end Ucore
