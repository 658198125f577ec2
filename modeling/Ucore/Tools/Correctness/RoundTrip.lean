import Mathlib.Data.List.GetD
import Ucore.Tools.Correctness.LongFile
import Ucore.Tools.Correctness.Served

/-!
# `Tools.Correctness.RoundTrip` — what `mksfs` puts into a file is what the kernel finds there

`mksfs` knows three levels of index blocks and the kernel two, so the round trip of a file holds exactly up
to 1036 blocks. The entry of a name goes to the image without its last four bytes: for a directory the
names have to be of at most 252 characters as well.
-/

namespace Ucore

open SfsFs SfsCtx

namespace Mksfs

/-! ## The reads of a file -/

section Reads

variable {last p : Nat} {reads : List (List UInt8)}

theorem FullButLast.full {buffer : List UInt8} (h : FullButLast last (buffer :: reads)) (hne : reads ≠ []) :
    buffer.length = 4096 := by
  cases reads with
  | nil => exact absurd rfl hne
  | cons b rest => exact h.2.1

/-- The bytes of a file, read by blocks. -/
theorem FullButLast.getD (h : FullButLast last reads) (hle : ∀ buffer ∈ reads, buffer.length ≤ 4096)
    (hp : p < reads.flatten.length) : reads.flatten.getD p 0 = (reads.getD (p / 4096) []).getD (p % 4096) 0 := by
  induction reads generalizing last p with
  | nil => exact absurd hp (Nat.not_lt_zero p)
  | cons buffer rest ih =>
    have hbuf := hle buffer List.mem_cons_self
    rw [List.flatten_cons, List.length_append] at hp
    rw [List.flatten_cons]
    by_cases hin : p < buffer.length
    · rw [List.getD_append _ _ _ _ hin, Nat.div_eq_of_lt (by omega), Nat.mod_eq_of_lt (by omega)]
      rfl
    · have hne : rest ≠ [] := by
        rintro rfl
        rw [List.flatten_nil, List.length_nil] at hp
        omega
      have hlen := h.full hne
      obtain ⟨q, rfl⟩ : ∃ q, p = q + 4096 := ⟨p - 4096, by omega⟩
      rw [List.getD_append_right _ _ _ _ (by omega), Nat.add_div_right q (by decide), Nat.add_mod_right,
        List.getD_cons_succ, hlen, Nat.add_sub_cancel]
      exact ih h.2 (fun b hb => hle b (List.mem_cons_of_mem _ hb)) (by omega)

theorem FullButLast.blocks (h : FullButLast last reads)
    (hlen : ∀ buffer ∈ reads, 0 < buffer.length ∧ buffer.length ≤ 4096) :
    reads.length = blocksFor reads.flatten.length := by
  rw [blocksFor_eq]
  induction reads generalizing last with
  | nil => rfl
  | cons buffer rest ih =>
    have hbuf := hlen buffer List.mem_cons_self
    rw [List.flatten_cons, List.length_append, List.length_cons]
    by_cases hne : rest = []
    · subst hne
      rw [List.flatten_nil, List.length_nil, List.length_nil]
      omega
    · have hfull := h.full hne
      have := ih h.2 fun b hb => hlen b (List.mem_cons_of_mem _ hb)
      omega

theorem padBlock_strBytes (buffer : List UInt8) (j : Nat) :
    padBlock (strBytes buffer) buffer.length j = buffer.getD j 0 := by
  by_cases h : j < buffer.length
  · rw [padBlock_lt h, strBytes]
  · rw [padBlock, memcpy_out (by omega), List.getD_eq_getElem?_getD, List.getElem?_eq_none (by omega)]
    rfl

end Reads

variable {m m' m₀ m₁ : Mksfs} {f k size real : Nat} {c : SfsCtx} {reads : List (List UInt8)} {ops ops₁ ops₂ : List MkOp}

/-! ## Files -/

/-- The file that `newFile` makes, up to the end of the walk. -/
structure Stored (m : Mksfs) (f : Nat) (reads : List (List UInt8)) : Prop where
  isInode : m.IsInode f
  content : m.content f = readBlocks reads
  size : (m.inodeAt f).inode.size = reads.flatten.length
  type : (m.inodeAt f).inode.type = sfsTypeFile
  full : FullButLast 4096 reads
  given : ∀ buffer ∈ reads, 0 < buffer.length ∧ buffer.length ≤ 4096

theorem newFile_stored (h : m.Inv) (hnew : searchCacheInode m real = none) (hg : (MkOp.newFile real reads).Given m)
    (hrun : (MkOp.newFile real reads).run m = .ok () m') : Stored m' m.nextIno reads := by
  rw [MkOp.run, Proc.get_bind, if_pos hnew] at hrun
  obtain ⟨b, m₁, halloc, hrun⟩ := Proc.bind_eq_ok.mp hrun
  obtain ⟨hlt, rfl, rfl⟩ := allocCacheInode_ok halloc
  have hc := @created m real sfsTypeFile h hlt (by decide)
  have hin := (hc.isInode m.nextIno).mpr (Or.inl rfl)
  have ho := openFile_opened reads hc.inv hin hrun
  refine ⟨?_, ?_, ?_, ho.type.trans hc.type, ho.full, hg⟩
  · rw [IsInode, ho.inodes]
    exact hin
  · rw [ho.content, hc.content, List.nil_append]
  · rw [ho.size, hc.size, Nat.zero_add, List.length_flatten]

/-- Later steps leave a file alone. -/
theorem Stored.runs (hs : Stored m f reads) (h : m.Inv) (hrun : MkRuns m ops m') : Stored m' f reads := by
  obtain ⟨-, -, hkeep⟩ := runs_inv hrun h
  obtain ⟨hin, htype, hsame⟩ := hkeep f hs.isInode
  have hfile : (m.inodeAt f).inode.type ≠ sfsTypeDir := by
    rw [hs.type]
    decide
  have hsame' := hsame hfile
  exact ⟨hin, hsame'.content.trans hs.content, hsame'.size.trans hs.size, htype.trans hs.type, hs.full, hs.given⟩

theorem Stored.nblks (hs : Stored m f reads) : (m.inodeAt f).nblks = reads.length := by
  rw [← content_length, hs.content, readBlocks, List.length_map]

theorem Stored.block (hs : Stored m f reads) (hk : k < reads.length) :
    m.img (m.val f (.data k)) = padBlock (strBytes reads[k]) reads[k].length := by
  have hget : (m.content f)[k]? = (readBlocks reads)[k]? := by rw [hs.content]
  have hk' : k < (m.inodeAt f).nblks := hs.nblks ▸ hk
  rw [Mksfs.content, List.getElem?_map, List.getElem?_range hk', readBlocks, List.getElem?_map,
    List.getElem?_eq_getElem hk] at hget
  exact Option.some.inj hget

/-- The kernel finds the blocks of the file where `mksfs` has put them, and reads back its bytes. -/
structure FileReads (m : Mksfs) (f : Nat) (reads : List (List UInt8)) (c : SfsCtx) : Prop where
  blocks : c.sin.din.blocks = reads.length
  load : ∀ k (hk : k < reads.length), ∃ c', sfsBmapLoadNolock k c = .ok (m.val f (.data k)) c' ∧
    c'.fs.dev.blk (m.val f (.data k)) = padBlock (strBytes reads[k]) reads[k].length
  whole : ∀ buf, ∃ r c', sfsIoNolock buf (0 : Nat) c.sin.din.size false c = .ok r c' ∧ r.ret = 0 ∧
    r.alen = reads.flatten.length ∧ ∀ p, p < r.alen → r.buf p = reads.flatten.getD p 0

theorem Shown.sizes (hshow : Shown m f c) (h : m.Inv) (hs : Stored m f reads) :
    c.sin.din.blocks = reads.length ∧ c.sin.din.size = reads.flatten.length := by
  rw [hshow.din]
  exact ⟨(h.counts f).blocks.trans hs.nblks, hs.size⟩

theorem fileReads_of_le (h : m.Inv) (hs : Stored m f reads) (hshow : Shown m f c) (hle : reads.length ≤ 1036) :
    FileReads m f reads c := by
  have hinv := hshow.inv (hs.nblks ▸ hle)
  obtain ⟨hblocks, hsize⟩ := hshow.sizes h hs
  have hblk : ∀ k (hk : k < reads.length), c.fs.dev.blk (c.lookup k) = padBlock (strBytes reads[k]) reads[k].length := by
    intro k hk
    rw [hshow.lookup k (by omega), hshow.data k (hs.nblks ▸ hk), hs.block hk]
  refine ⟨hblocks, fun k hk => ?_, fun buf => ?_⟩
  · obtain ⟨c', hload, hr⟩ := load_reads hinv hshow.healthy (i := k) (by omega)
    rw [← hshow.lookup k (by omega)]
    exact ⟨c', hload, by rw [hr.blk, hblk k hk]⟩
  · have hbound : reads.flatten.length ≤ 1036 * 4096 := by
      have := hs.full.blocks hs.given
      rw [blocksFor_eq] at this
      omega
    have htype : c.sin.din.type ≠ sfsTypeDir := by
      rw [hshow.din]
      show (m.inodeAt f).inode.type ≠ _
      rw [hs.type]
      decide
    have hfit : c.sin.din.blocks = blocksFor c.sin.din.size := by
      rw [hblocks, hsize]
      exact hs.full.blocks hs.given
    obtain ⟨r, c', hrun, hret, halen, hbuf, -⟩ := @sfsIoNolock_read c ∅ 0 c.sin.din.size buf hinv
      hshow.healthy htype hfit (Nat.zero_le _) (by omega)
    have halen' : r.alen = reads.flatten.length := by
      rw [halen, hsize]
      omega
    refine ⟨r, c', hrun, hret, halen', fun p hp => ?_⟩
    rw [halen'] at hp
    have hidx : p / 4096 < reads.length := by
      have := hs.full.blocks hs.given
      rw [blocksFor_eq] at this
      omega
    rw [hbuf, if_pos (halen' ▸ hp), Nat.zero_add, data_eq hinv hshow.healthy (by omega), byteAt, hblk _ hidx,
      hs.full.getD (fun b hb => (hs.given b hb).2) hp, padBlock_strBytes, List.getD_eq_getElem _ _ hidx]

theorem not_fileReads_of_gt (hgt : 1036 < reads.length) : ¬ FileReads m f reads c := by
  intro hr
  obtain ⟨c', hload, -⟩ := hr.load 1036 hgt
  have hle : 1036 ≤ c.sin.din.blocks := by
    rw [hr.blocks]
    exact Nat.le_of_lt hgt
  rw [sfsBmapLoadNolock_outOfRange hle (Nat.le_refl _)] at hload
  cases hload

/-! ## Directories -/

/-- The kernel finds the entries of `l` in the directory, each at its slot, and no others. -/
structure DirReads (c : SfsCtx) (l : List (List UInt8 × Nat)) : Prop where
  blocks : c.sin.din.blocks = l.length
  read : ∀ k (hk : k < l.length) entry, ∃ x c', sfsDirentReadNolock k entry c = .ok x c' ∧ EntryNamed x l[k].1 l[k].2
  search : ∀ k (hk : k < l.length) entry, ∃ c', sfsDirentSearchNolock l[k].1 (some entry) c =
    .ok { ret := 0, ino := some l[k].2, slot := some k, emptySlot := some l.length } c'
  other : ∀ name, name.length ≤ sfsMaxFnameLen → (∀ ch ∈ name, ch ≠ 0) → name ∉ l.map Prod.fst → ∀ entry, ∃ c',
    sfsDirentSearchNolock name (some entry) c =
      .ok { ret := -eNoEnt, ino := none, slot := none, emptySlot := some l.length } c'

/-- What the walk has put into the directory `dir`. -/
structure Listed (m : Mksfs) (dir : Nat) (l : List (List UInt8 × Nat)) : Prop where
  isInode : m.IsInode dir
  type : (m.inodeAt dir).inode.type = sfsTypeDir
  content : List.Forall₂ (fun x e => EntryBlock x e.1 e.2) (m.content dir) l
  name : ∀ e ∈ l, e.1.length ≤ 255 ∧ ∀ ch ∈ e.1, ch ≠ 0
  ino : ∀ e ∈ l, e.2 ≠ 0

/-- The entries that a step makes are those of names and inodes. -/
theorem added_ok {op : MkOp} (h : m.Inv) (hg : op.Given m) (hrun : op.run m = .ok () m') {dir : Nat} :
    ∀ e ∈ op.added dir, (e.1.length ≤ 255 ∧ ∀ ch ∈ e.1, ch ≠ 0) ∧ e.2 ≠ 0 := by
  intro e he
  cases op with
  | newDir real => exact absurd he List.not_mem_nil
  | newFile real reads => exact absurd he List.not_mem_nil
  | newLink real target => exact absurd he List.not_mem_nil
  | addEntry current file name =>
    obtain ⟨hcur, hfile, hchars⟩ := hg
    have hadded := addEntry_added h hcur hfile hrun
    rw [MkOp.added] at he
    split at he
    · rw [List.mem_singleton.mp he]
      refine ⟨⟨hadded.length, hchars⟩, fun hz => ?_⟩
      have hfirst := m.first_pos
      have hz' : file = 0 := hz
      rcases h.owned.inode_range file hfile with h1 | ⟨h1, -⟩ <;> omega
    · exact absurd he List.not_mem_nil

theorem runs_added (hrun : MkRuns m ops m') (h : m.Inv) {dir : Nat} :
    ∀ e ∈ ops.flatMap (MkOp.added dir), (e.1.length ≤ 255 ∧ ∀ ch ∈ e.1, ch ≠ 0) ∧ e.2 ≠ 0 := by
  induction hrun with
  | nil =>
    intro e he
    exact absurd he List.not_mem_nil
  | cons hg hstep hrest ih =>
    intro e he
    rw [List.flatMap_cons, List.mem_append] at he
    rcases he with he | he
    · exact added_ok h hg hstep e he
    · exact ih (walked h hg hstep).inv e he

theorem runs_listed {img₀ : Nat → Bytes} {dir : Nat} (h0 : createSfs size img₀ = .ok m₀) (hrun : MkRuns m₀ ops m)
    (hin : m.IsInode dir) (htype : (m.inodeAt dir).inode.type = sfsTypeDir) :
    Listed m dir (ops.flatMap (MkOp.added dir)) := by
  obtain ⟨hinv, -, hempty⟩ := createSfs_ok h0
  obtain ⟨l, hl, hentries⟩ := runs_entries hrun hinv htype
  have hadded := @runs_added m₀ m ops hrun hinv dir
  rw [hempty, List.nil_append] at hl
  exact ⟨hin, htype, hl ▸ hentries, fun e he => (hadded e he).1, fun e he => (hadded e he).2⟩

variable {dir : Nat} {l : List (List UInt8 × Nat)}

theorem Listed.nblks (he : Listed m dir l) : (m.inodeAt dir).nblks = l.length := by
  rw [← content_length]
  exact he.content.length_eq

theorem Listed.block (he : Listed m dir l) (hk : k < l.length) :
    EntryBlock (m.img (m.val dir (.data k))) l[k].1 l[k].2 := by
  have hlen : (m.content dir).length = l.length := he.content.length_eq
  have hk' : k < (m.content dir).length := hlen.symm ▸ hk
  have hentry := he.content.get hk' hk
  have hget : (m.content dir).get ⟨k, hk'⟩ = m.img (m.val dir (.data k)) := by
    simp only [Mksfs.content, List.get_eq_getElem, List.getElem_map, List.getElem_range]
  exact hget ▸ hentry

/-- Up to 252 characters the missing bytes of an entry are those that have to be zero. -/
theorem EntryBlock.named {x : Bytes} {name : List UInt8} {ino : Nat} (h : EntryBlock x name ino)
    (hlen : name.length ≤ 252) : EntryNamed x name ino := by
  refine ⟨h.ino, fun j hj => ?_⟩
  by_cases hlt : j < 252
  · exact h.name j hj hlt
  · rw [h.rest _ (by omega), List.getD_eq_default _ _ (by omega)]

theorem dirReads_of_le (he : Listed m dir l) (hnodup : (l.map Prod.fst).Nodup) (hshow : Shown m dir c) (h : m.Inv)
    (hlen : ∀ e ∈ l, e.1.length ≤ 252) (hle : l.length ≤ 1036) : DirReads c l := by
  have hinv := hshow.inv (he.nblks ▸ hle)
  have htype : c.sin.din.type = sfsTypeDir := by
    rw [hshow.din]
    exact he.type
  have hblocks : c.sin.din.blocks = l.length := by
    rw [hshow.din]
    exact (h.counts dir).blocks.trans he.nblks
  have hentry : ∀ k (hk : k < l.length), EntryNamed (c.fs.dev.blk (c.lookup k)) l[k].1 l[k].2 := by
    intro k hk
    rw [hshow.lookup k (by omega), hshow.data k (he.nblks ▸ hk)]
    exact (he.block hk).named (hlen _ (List.getElem_mem hk))
  have hlists : Lists c 0 l := ⟨fun k hk => (Nat.zero_add k).symm ▸ hentry k hk, he.name, he.ino⟩
  refine ⟨hblocks, fun k hk entry => ?_, fun k hk entry => ?_, fun name hname hchars hnot entry => ?_⟩
  · obtain ⟨c', hread, -⟩ := sfsDirentReadNolock_run entry hinv hshow.healthy htype (hblocks ▸ hk)
    exact ⟨_, c', hread, (hentry k hk).read (he.name _ (List.getElem_mem hk)).1 entry⟩
  · obtain ⟨hshort, hchars⟩ := he.name _ (List.getElem_mem hk)
    obtain ⟨c', hrun, -⟩ := sfsDirentSearchNolock_run hchars hshort entry hinv hshow.healthy htype hlists hblocks
    rw [direntFound_at hnodup hk, Nat.zero_add] at hrun
    exact ⟨c', hrun⟩
  · obtain ⟨c', hrun, -⟩ := sfsDirentSearchNolock_run hchars hname entry hinv hshow.healthy htype hlists hblocks
    rw [direntFound_missing hnot] at hrun
    exact ⟨c', hrun⟩

theorem length_le_of_dirReads (hr : DirReads c l) : l.length ≤ 1036 := by
  by_contra hgt
  have hlt : 1036 < l.length := Nat.lt_of_not_le hgt
  obtain ⟨x, c', hread, -⟩ := hr.read 1036 hlt fun _ => 0
  have hle : 1036 ≤ c.sin.din.blocks := by
    rw [hr.blocks]
    exact Nat.le_of_lt hlt
  unfold sfsDirentReadNolock at hread
  rw [Proc.get_bind] at hread
  obtain ⟨_, c₁, hcheck, hload⟩ := Proc.bind_eq_ok.mp hread
  obtain ⟨-, rfl⟩ := Proc.check_eq_ok.mp hcheck
  rw [Proc.bind_panic (sfsBmapLoadNolock_outOfRange hle (Nat.le_refl _))] at hload
  cases hload

/-- A longer name comes back cut off after 252 characters. -/
theorem name_le_of_dirReads (he : Listed m dir l) (hshow : Shown m dir c) (hr : DirReads c l) :
    ∀ e ∈ l, e.1.length ≤ 252 := by
  intro e hmem
  obtain ⟨k, hk, rfl⟩ := List.getElem_of_mem hmem
  have hle := length_le_of_dirReads hr
  have hinv := hshow.inv (he.nblks ▸ hle)
  have htype : c.sin.din.type = sfsTypeDir := by
    rw [hshow.din]
    exact he.type
  obtain ⟨x, c₁, hread, hnamed⟩ := hr.read k hk fun _ => 0
  obtain ⟨c₂, hread', -⟩ := sfsDirentReadNolock_run (fun _ => 0) hinv hshow.healthy htype (hr.blocks.symm ▸ hk)
  rw [hread] at hread'
  injection hread' with hx
  by_contra hgt
  have hchar := hnamed.name 252 (by omega)
  -- byte 256 of the entry was not written
  have hzero : x 256 = 0 := by
    rw [hx, direntRead, Function.update_of_ne (by decide), memcpy_in (by decide), hshow.lookup k (by omega),
      hshow.data k (he.nblks ▸ hk)]
    exact (he.block hk).rest 256 (Nat.le_refl _)
  rw [hzero, List.getD_eq_getElem _ _ (by omega)] at hchar
  exact (he.name _ hmem).2 _ (List.getElem_mem _) hchar.symm

end Mksfs

open Mksfs

variable {m m₀ m₁ : Mksfs} {size real dir : Nat} {img₀ : Nat → Bytes} {ops ops₁ ops₂ : List MkOp}
  {reads : List (List UInt8)} {c : SfsCtx}

/-- **The round trip of a file.** For a file made at any point of the walk, the kernel finds every block, and
    with them the content, if and only if there are at most 1036 of them. -/
theorem mksfs_file (h0 : createSfs size img₀ = .ok m₀) (h₁ : MkRuns m₀ ops₁ m₁) (hnew : searchCacheInode m₁ real = none)
    (h₂ : MkRuns m₁ (.newFile real reads :: ops₂) m) (hs : Served m m₁.nextIno c) :
    FileReads m m₁.nextIno reads c ↔ reads.length ≤ 1036 := by
  have hinv₁ := (runs_inv h₁ (createSfs_ok h0).1).1
  have hinv := (runs_inv h₂ hinv₁).1
  cases h₂ with
  | cons hg hrun hrest =>
    have hstored := (newFile_stored hinv₁ hnew hg hrun).runs (walked hinv₁ hg hrun).inv hrest
    constructor
    · intro hr
      by_contra hgt
      exact not_fileReads_of_gt (Nat.lt_of_not_le hgt) hr
    · exact fileReads_of_le hinv hstored (served_shown hinv hstored.isInode hs)

theorem chars_singleton {b : UInt8} (h : b ≠ 0) : ∀ ch ∈ [b], ch ≠ 0 := by
  intro ch hch
  rw [List.mem_singleton.mp hch]
  exact h

/-- A file of `n` blocks of zeros, with one link. -/
def zeroFile (n : Nat) : List MkOp := [.newFile 7 (List.replicate n (List.replicate 4096 0)), .addEntry 1 3 [97]]

theorem zeroFile_served {n : Nat} (hn : n ≤ 1037) : ∃ m₀ m c, createSfs 16384000 (fun _ _ => 0) = .ok m₀ ∧
    m₀.nextIno = 3 ∧ searchCacheInode m₀ 7 = none ∧ MkRuns m₀ (zeroFile n) m ∧ Served m 3 c := by
  obtain ⟨m₀, h0, hnext, hninos, hnew, hroot, hnode⟩ : ∃ m₀, createSfs 16384000 (fun _ _ => 0) = .ok m₀ ∧ m₀.nextIno = 3 ∧
      m₀.ninos = 4000 ∧ searchCacheInode m₀ 7 = none ∧ m₀.IsInode 1 ∧ m₀.inodeAt 1 =
        { inode := MkInode.empty sfsTypeDir, real := 0, nblks := 0, l1 := none, l2 := none } :=
    ⟨_, rfl, rfl, rfl, rfl, ⟨0, List.mem_singleton.mpr rfl⟩, rfl⟩
  have hinv₀ := (createSfs_ok h0).1
  have hcreated := @created m₀ 7 sfsTypeFile hinv₀ (by omega) (by decide)
  have halloc : allocCacheInode 7 0 sfsTypeFile m₀ = .ok m₀.nextIno (m₀.take.addInode m₀.nextIno 7 sfsTypeFile) := by
    unfold allocCacheInode
    rw [if_neg (not_not_intro rfl)]
    have hino : sfsAllocIno m₀ = .ok m₀.nextIno m₀.take := by
      unfold sfsAllocIno
      rw [Proc.get_bind, if_pos (by omega)]
      rfl
    exact (Proc.bind_ok hino).trans rfl
  have hself : (m₀.take.addInode m₀.nextIno 7 sfsTypeFile).inodeAt m₀.nextIno =
      { inode := MkInode.empty sfsTypeFile, real := 7, nblks := 0, l1 := none, l2 := none } := Function.update_self _ _ _
  have hgrow : Growing (m₀.take.addInode m₀.nextIno 7 sfsTypeFile) m₀.nextIno 0 :=
    ⟨congrArg (·.nblks) hself, fun _ => congrArg (·.inode.indirect) hself, fun h => by omega,
      fun _ => congrArg (·.inode.dbIndirect) hself, Nat.succ_pos _⟩
  have hroom : m₀.nextIno + 1 + 3 * (List.replicate n (List.replicate 4096 (0 : UInt8))).length ≤ m₀.ninos := by
    rw [List.length_replicate]
    omega
  have hfull : ∀ buffer ∈ List.replicate n (List.replicate 4096 (0 : UInt8)), buffer.length = 4096 := by
    intro buffer hb
    rw [List.eq_of_mem_replicate hb, List.length_replicate]
  obtain ⟨m₁, hopen, hhand⟩ := openFile_runs (List.replicate n (List.replicate 4096 0)) hgrow
    (by rw [List.length_replicate]; omega) hroom hfull
  have hopened := openFile_opened _ hcreated.inv ((hcreated.isInode _).mpr (Or.inl rfl)) hopen
  have hrun₁ : (MkOp.newFile 7 (List.replicate n (List.replicate 4096 0))).run m₀ = .ok () m₁ := by
    rw [MkOp.run, Proc.get_bind, if_pos hnew, Proc.bind_ok halloc]
    exact hopen
  -- the root directory is as `create_sfs` has left it
  have hnode₁ : m₁.inodeAt 1 = m₀.inodeAt 1 := by
    rw [hhand.other 1 (by omega)]
    exact Function.update_of_ne (by omega) _ _
  rw [hnode] at hnode₁
  have hle := hhand.le
  have hnext₁ := hhand.nextIno
  have hninos₁ : m₁.ninos = m₀.ninos := hhand.ninos
  have hstart : (m₀.take.addInode m₀.nextIno 7 sfsTypeFile).nextIno = m₀.nextIno + 1 := rfl
  rw [List.length_replicate] at hnext₁
  have hgrow₁ : Growing m₁ 1 0 :=
    ⟨congrArg (·.nblks) hnode₁, fun _ => congrArg (·.inode.indirect) hnode₁, fun h => by omega,
      fun _ => congrArg (·.inode.dbIndirect) hnode₁, by omega⟩
  obtain ⟨m, hrun₂, htype, hlinks⟩ := @addEntry_runs m₁ 0 1 3 [97] hgrow₁ (by decide) (by omega)
    (congrArg (·.inode.type) hnode₁) (by decide)
  have hin : ∀ g, (m₀.take.addInode m₀.nextIno 7 sfsTypeFile).IsInode g → m₁.IsInode g := by
    intro g hg
    rw [IsInode, hopened.inodes]
    exact hg
  have hroot₁ := hin 1 ((hcreated.isInode 1).mpr (Or.inr hroot))
  have hfile₁ := hin 3 ((hcreated.isInode 3).mpr (Or.inl hnext.symm))
  have hgiven : (MkOp.newFile 7 (List.replicate n (List.replicate 4096 0))).Given m₀ := by
    intro buffer hb
    have := hfull buffer hb
    omega
  have hruns : MkRuns m₀ (zeroFile n) m := .cons hgiven hrun₁ (.cons ⟨hroot₁, hfile₁, chars_singleton (by decide)⟩ hrun₂ .nil)
  have hrest : MkRuns m₁ [.addEntry 1 3 [97]] m := .cons ⟨hroot₁, hfile₁, chars_singleton (by decide)⟩ hrun₂ .nil
  have hin₂ := ((runs_inv hrest hopened.inv).2.2 3 hfile₁).1
  have hlinks₁ : (m₁.inodeAt 3).inode.nlinks = 0 := by
    rw [← hnext, hhand.links]
    exact congrArg (·.inode.nlinks) hself
  have htype₁ : (m₁.inodeAt 3).inode.type = sfsTypeFile := by
    rw [← hnext, hopened.type, hcreated.type]
  obtain ⟨c, hs⟩ := exists_served (runs_inv hruns hinv₀).1 hin₂ (by rw [hlinks, hlinks₁]; decide)
    (Or.inr (htype.trans htype₁))
  exact ⟨m₀, m, c, h0, hnext, hnew, hruns, hs⟩

/-- A file of one block of zeros. -/
theorem mksfs_file_oneBlock : ∃ m₀ m c, createSfs 16384000 (fun _ _ => 0) = .ok m₀ ∧ MkRuns m₀ (zeroFile 1) m ∧
    Served m 3 c ∧ FileReads m 3 (List.replicate 1 (List.replicate 4096 0)) c := by
  obtain ⟨m₀, m, c, h0, hnext, hnew, hruns, hs⟩ := zeroFile_served (n := 1) (by decide)
  rw [← hnext] at hs
  have hreads := (mksfs_file h0 .nil hnew hruns hs).mpr (Nat.succ_le_succ (Nat.zero_le _))
  rw [hnext] at hs hreads
  exact ⟨m₀, m, c, h0, hruns, hs, hreads⟩

/-- A file of 1037 blocks is accepted, and the kernel stops at its last block. -/
theorem mksfs_file_tooLong : ∃ m₀ m c, createSfs 16384000 (fun _ _ => 0) = .ok m₀ ∧ MkRuns m₀ (zeroFile 1037) m ∧
    Served m 3 c ∧ ¬ FileReads m 3 (List.replicate 1037 (List.replicate 4096 0)) c := by
  obtain ⟨m₀, m, c, h0, -, -, hruns, hs⟩ := zeroFile_served (n := 1037) (Nat.le_refl _)
  refine ⟨m₀, m, c, h0, hruns, hs, not_fileReads_of_gt ?_⟩
  rw [List.length_replicate]
  decide

/-- **The round trip of a directory.** For the names added to a directory in the course of the walk, the kernel finds
    these and no others, each with its inode and at its slot, if and only if none is longer than 252
    characters and there are at most 1036. -/
theorem mksfs_directory (h0 : createSfs size img₀ = .ok m₀) (hrun : MkRuns m₀ ops m) (hin : m.IsInode dir)
    (htype : (m.inodeAt dir).inode.type = sfsTypeDir)
    (hnodup : ((ops.flatMap (MkOp.added dir)).map Prod.fst).Nodup) (hs : Served m dir c) :
    DirReads c (ops.flatMap (MkOp.added dir)) ↔
      (∀ e ∈ ops.flatMap (MkOp.added dir), e.1.length ≤ 252) ∧ (ops.flatMap (MkOp.added dir)).length ≤ 1036 := by
  have hinv := (runs_inv hrun (createSfs_ok h0).1).1
  have hlisted := runs_listed h0 hrun hin htype
  have hshow := served_shown hinv hin hs
  constructor
  · intro hr
    exact ⟨name_le_of_dirReads hlisted hshow hr, length_le_of_dirReads hr⟩
  · rintro ⟨hlen, hle⟩
    exact dirReads_of_le hlisted hnodup hshow hinv hlen hle

/-- The root directory with one entry, for itself. -/
theorem oneEntry_served (name : List UInt8) (hlen : name.length ≤ 255) (hchars : ∀ ch ∈ name, ch ≠ 0) :
    ∃ m₀ m c, createSfs 32768 (fun _ _ => 0) = .ok m₀ ∧ MkRuns m₀ [.addEntry 1 1 name] m ∧ m.IsInode 1 ∧
      (m.inodeAt 1).inode.type = sfsTypeDir ∧ Served m 1 c := by
  obtain ⟨m₀, h0, hnext, hninos, hroot, hnode⟩ : ∃ m₀, createSfs 32768 (fun _ _ => 0) = .ok m₀ ∧ m₀.nextIno = 3 ∧
      m₀.ninos = 8 ∧ m₀.IsInode 1 ∧ m₀.inodeAt 1 =
        { inode := MkInode.empty sfsTypeDir, real := 0, nblks := 0, l1 := none, l2 := none } :=
    ⟨_, rfl, rfl, rfl, ⟨0, List.mem_singleton.mpr rfl⟩, rfl⟩
  have hinv₀ := (createSfs_ok h0).1
  have hgrow : Growing m₀ 1 0 :=
    ⟨congrArg (·.nblks) hnode, fun _ => congrArg (·.inode.indirect) hnode, fun h => by omega,
      fun _ => congrArg (·.inode.dbIndirect) hnode, by omega⟩
  obtain ⟨m, hrun, htype, hlinks⟩ := @addEntry_runs m₀ 0 1 1 name hgrow (by decide) (by omega)
    (congrArg (·.inode.type) hnode) hlen
  have hruns : MkRuns m₀ [.addEntry 1 1 name] m := .cons ⟨hroot, hroot, hchars⟩ hrun .nil
  obtain ⟨hinv, -, hkeep⟩ := runs_inv hruns hinv₀
  have hin := (hkeep 1 hroot).1
  have htype' : (m.inodeAt 1).inode.type = sfsTypeDir := by
    rw [htype, hnode]
    rfl
  have hlinks' : (m.inodeAt 1).inode.nlinks ≠ 0 := by
    rw [hlinks, hnode]
    decide
  obtain ⟨c, hs⟩ := exists_served hinv hin hlinks' (Or.inl htype')
  exact ⟨m₀, m, c, h0, hruns, hin, htype', hs⟩

/-- The entry `.` -/
theorem mksfs_directory_dot : ∃ m₀ m c, createSfs 32768 (fun _ _ => 0) = .ok m₀ ∧ MkRuns m₀ [.addEntry 1 1 [46]] m ∧
    Served m 1 c ∧ DirReads c [([46], 1)] := by
  obtain ⟨m₀, m, c, h0, hruns, hin, htype, hs⟩ := oneEntry_served [46] (by decide) (chars_singleton (by decide))
  have hshort : ∀ e ∈ [([(46 : UInt8)], 1)], e.1.length ≤ 252 := by
    intro e he
    rw [List.mem_singleton.mp he]
    exact Nat.succ_le_succ (Nat.zero_le _)
  have hnodup : [[(46 : UInt8)]].Nodup := List.nodup_singleton _
  exact ⟨m₀, m, c, h0, hruns, hs, (mksfs_directory h0 hruns hin htype hnodup hs).mpr
    ⟨hshort, Nat.succ_le_succ (Nat.zero_le _)⟩⟩

/-- A name of 253 characters is accepted, and comes back without its last one. -/
theorem mksfs_directory_longName : ∃ m₀ m c, createSfs 32768 (fun _ _ => 0) = .ok m₀ ∧
    MkRuns m₀ [.addEntry 1 1 (List.replicate 253 97)] m ∧ Served m 1 c ∧
    ¬ DirReads c [(List.replicate 253 97, 1)] := by
  have hlen : (List.replicate 253 (97 : UInt8)).length = 253 := List.length_replicate
  obtain ⟨m₀, m, c, h0, hruns, hin, htype, hs⟩ := oneEntry_served (List.replicate 253 97) (by rw [hlen]; decide)
    fun ch hch => by
      rw [List.eq_of_mem_replicate hch]
      decide
  have hinv := (runs_inv hruns (createSfs_ok h0).1).1
  have hlisted := runs_listed h0 hruns hin htype
  refine ⟨m₀, m, c, h0, hruns, hs, fun hr => ?_⟩
  have hle := name_le_of_dirReads hlisted (served_shown hinv hin hs) hr _ (List.mem_singleton.mpr rfl)
  rw [hlen] at hle
  exact absurd hle (by decide)

end Ucore
