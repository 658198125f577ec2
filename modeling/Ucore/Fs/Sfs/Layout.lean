import Ucore.Lib.Bytes
import Ucore.Lib.Proc
import Ucore.Libs.Error

/-!
# `Fs.Sfs.Layout` — `kern/fs/sfs/sfs.h`, the data of the simple file system

The on-disk structures with their byte layout, and the in-memory inode. Fields of the C structures are
unsigned numbers of fixed width; they are `Nat` here, and the lemmas about the layout carry the widths.
`SfsPanic` lists the assertions and panics of the files modelled under `Fs.Sfs`, one constructor each.
-/

namespace Ucore

/-- `SFS_MAGIC` -/
def sfsMagic : Nat := 0x2f8dbe2a
/-- `SFS_BLKSIZE`, the page size -/
def sfsBlksize : Nat := 4096
/-- `SFS_NDIRECT` -/
def sfsNdirect : Nat := 12
/-- `SFS_MAX_FNAME_LEN` -/
def sfsMaxFnameLen : Nat := 255
/-- `SFS_MAX_FILE_SIZE`, 128M -/
def sfsMaxFileSize : Nat := 1024 * 1024 * 128
/-- `sfs_dentry_size`, of the name in an entry -/
def sfsDentrySize : Nat := sfsMaxFnameLen + 1
/-- `SFS_BLKN_SUPER` -/
def sfsBlknSuper : Nat := 0
/-- `SFS_BLKN_FREEMAP` -/
def sfsBlknFreemap : Nat := 2
/-- `SFS_BLKBITS` -/
def sfsBlkbits : Nat := sfsBlksize * 8
/-- `SFS_BLK_NENTRY` -/
def sfsBlkNentry : Nat := sfsBlksize / 4
/-- `SFS_TYPE_FILE` -/
def sfsTypeFile : Nat := 1
/-- `SFS_TYPE_DIR` -/
def sfsTypeDir : Nat := 2

/-- `ROUNDUP_DIV` -/
def roundupDiv (a n : Nat) : Nat := (a + n - 1) / n

/-- The assertions and panics of `bitmap.c`, `iobuf.c`, `ide.c`, `dev_disk0.c`, `sfs_io.c`, `sfs_inode.c` and `sfs_fs.c`. -/
inductive SfsPanic where
  | bitmapAllocWord        -- `bitmap_alloc`: `assert(0)`
  | bitmapTranslate        -- `bitmap_translate`: `assert(index < bitmap->nbits)`
  | bitmapFree             -- `bitmap_free`: `assert(!(*word & mask))`
  | bitmapCreate           -- `bitmap_create`
  | iobufSkip              -- `iobuf_skip`: `assert(iob->io_resid >= n)`
  | vopGetdirentry         -- `__vop_op`: no `vop_getdirentry`
  | rwblock                -- `sfs_rwblock_nolock`
  | rbuf                   -- `sfs_rbuf`
  | wbuf                   -- `sfs_wbuf`
  | blockInuse             -- `sfs_block_inuse: called out of range`
  | blockAllocUnused       -- `sfs_block_alloc`: `assert(sfs->super.unused_blocks > 0)`
  | blockAllocInuse        -- `sfs_block_alloc`: `assert(sfs_block_inuse(sfs, *ino_store))`
  | blockFree              -- `sfs_block_free`
  | direntRead             -- `sfs_dirent_read_nolock`: `assert(sin->din->type == SFS_TYPE_DIR && …)`
  | direntReadInuse        -- `sfs_dirent_read_nolock`: `assert(sfs_block_inuse(sfs, ino))`
  | direntSearchName       -- `sfs_dirent_search_nolock`: `assert(strlen(name) <= SFS_MAX_FNAME_LEN)`
  | loadInodeInuse         -- `sfs_load_inode`: `assert(sfs_block_inuse(sfs, ino))`
  | loadInodeNlinks        -- `sfs_load_inode`: `assert(din->nlinks != 0)`
  | invalidType            -- `sfs_get_ops`
  | bmapGetSub             -- `sfs_bmap_get_sub_nolock`: `assert(index < SFS_BLK_NENTRY)`
  | bmapGetIndirect        -- `sfs_bmap_get_nolock`: `assert(din->indirect == 0)`
  | indexOutOfRange        -- `sfs_bmap_get_nolock - index out of range`
  | bmapGetInuse           -- `sfs_bmap_get_nolock`: `assert(ino == 0 || sfs_block_inuse(sfs, ino))`
  | bmapFreeSub            -- `sfs_bmap_free_sub_nolock`
  | bmapLoadIndex          -- `sfs_bmap_load_nolock`: `assert(index <= din->blocks)`
  | bmapLoadInuse          -- `sfs_bmap_load_nolock`: `assert(sfs_block_inuse(sfs, ino))`
  | bmapTruncate           -- `sfs_bmap_truncate_nolock`: `assert(din->blocks != 0)`
  | ioType                 -- `sfs_io_nolock`: `assert(din->type != SFS_TYPE_DIR)`
  | truncfileSame          -- `sfs_truncfile`: `assert(tblks == din->blocks)`
  | truncfileBlocks        -- `sfs_truncfile`: `assert(din->blocks == tblks)`
  | reclaimCount           -- `sfs_reclaim`: `assert(sin->reclaim_count > 0)`
  | initFreemap            -- `sfs_init_freemap`: `assert(data != NULL && len == nblks * SFS_BLKSIZE)`
  | mountUnused            -- `sfs_do_mount`: `assert(unused_blocks == sfs->super.unused_blocks)`
  | ideSecs                -- `ide_read_secs`, `ide_write_secs`
  | disk0Copied            -- `disk0_io`: `assert(copied … && copied % DISK0_BLKSIZE == 0)`
  | loops                  -- a loop that would not end
deriving DecidableEq

/-- `struct sfs_super` -/
@[ext]
structure SfsSuper where
  magic : Nat
  blocks : Nat
  unusedBlocks : Nat
  info : Fin 32 → UInt8

/-- `struct sfs_disk_inode` -/
@[ext]
structure SfsDiskInode where
  size : Nat
  type : Nat
  nlinks : Nat
  blocks : Nat
  direct : Fin 12 → Nat
  indirect : Nat

/-- `struct sfs_inode`, with the `ref_count` of the `struct inode` it is part of. -/
structure SfsInode where
  din : SfsDiskInode
  ino : Nat
  dirty : Bool
  reclaimCount : Int
  refCount : Nat

/-! ## Byte layout -/

/-- The bytes of a `struct sfs_super`, placed at the start of `m`. -/
def SfsSuper.store (p : SfsSuper) (m : Bytes) : Bytes :=
  let m := putLe m 0 p.magic 4
  let m := putLe m 4 p.blocks 4
  let m := putLe m 8 p.unusedBlocks 4
  fun i => if h : 12 ≤ i ∧ i < 44 then p.info ⟨i - 12, by omega⟩ else m i

def SfsSuper.load (m : Bytes) : SfsSuper where
  magic := getLe m 0 4
  blocks := getLe m 4 4
  unusedBlocks := getLe m 8 4
  info := fun i => m (12 + i)

/-- The bytes of a `struct sfs_disk_inode`, placed at the start of `m`. -/
def SfsDiskInode.store (d : SfsDiskInode) (m : Bytes) : Bytes :=
  let m := putLe m 0 d.size 4
  let m := putLe m 4 d.type 2
  let m := putLe m 6 d.nlinks 2
  let m := putLe m 8 d.blocks 4
  let m := putArray m 12 (fun i => if h : i < 12 then d.direct ⟨i, h⟩ else 0) 4 12
  putLe m 60 d.indirect 4

def SfsDiskInode.load (m : Bytes) : SfsDiskInode where
  size := getLe m 0 4
  type := getLe m 4 2
  nlinks := getLe m 6 2
  blocks := getLe m 8 4
  direct := fun i => getLe m (12 + 4 * i) 4
  indirect := getLe m 60 4

/-- `sizeof(struct sfs_super)` and `sizeof(struct sfs_disk_inode)` -/
def sfsSuperSize : Nat := 44
def sfsDiskInodeSize : Nat := 64
/-- `sizeof(struct sfs_disk_entry)`: the inode number, and the name from byte 4 on -/
def sfsDiskEntrySize : Nat := 260

/-- The fields have values of their C types. -/
structure SfsSuper.Fits (p : SfsSuper) : Prop where
  magic : p.magic < 2 ^ 32
  blocks : p.blocks < 2 ^ 32
  unusedBlocks : p.unusedBlocks < 2 ^ 32

structure SfsDiskInode.Fits (d : SfsDiskInode) : Prop where
  size : d.size < 2 ^ 32
  type : d.type < 2 ^ 16
  nlinks : d.nlinks < 2 ^ 16
  blocks : d.blocks < 2 ^ 32
  direct : ∀ i, d.direct i < 2 ^ 32
  indirect : d.indirect < 2 ^ 32

theorem SfsSuper.load_store {p : SfsSuper} (h : p.Fits) (m : Bytes) : load (p.store m) = p := by
  obtain ⟨h1, h2, h3⟩ := h
  have hget : ∀ a, a + 4 ≤ 12 → getLe (p.store m) a 4
      = getLe (putLe (putLe (putLe m 0 p.magic 4) 4 p.blocks 4) 8 p.unusedBlocks 4) a 4 :=
    fun a ha => getLe_congr fun i hi hi' => dif_neg (by omega)
  refine SfsSuper.ext ?_ ?_ ?_ (funext fun i => ?_)
  · show getLe (p.store m) 0 4 = p.magic
    rw [hget 0 (by omega), getLe_putLe_out (by omega), getLe_putLe_out (by omega), getLe_putLe]
    exact Nat.mod_eq_of_lt h1
  · show getLe (p.store m) 4 4 = p.blocks
    rw [hget 4 (by omega), getLe_putLe_out (by omega), getLe_putLe]
    exact Nat.mod_eq_of_lt h2
  · show getLe (p.store m) 8 4 = p.unusedBlocks
    rw [hget 8 (by omega), getLe_putLe]
    exact Nat.mod_eq_of_lt h3
  · have hi : 12 ≤ 12 + i.val ∧ 12 + i.val < 44 := by omega
    show (if h : 12 ≤ 12 + i.val ∧ 12 + i.val < 44 then p.info ⟨12 + i.val - 12, _⟩ else _) = p.info i
    rw [dif_pos hi]
    exact congrArg p.info (Fin.ext (Nat.add_sub_cancel_left ..))

/-- Reading back the bytes of an inode gives the inode. -/
theorem SfsDiskInode.load_store {d : SfsDiskInode} (h : d.Fits) (m : Bytes) : load (d.store m) = d := by
  obtain ⟨h1, h2, h3, h4, h5, h6⟩ := h
  refine SfsDiskInode.ext ?_ ?_ ?_ ?_ (funext fun i => ?_) ?_ <;> simp only [load, store]
  · rw [getLe_putLe_out (by omega), getLe_putArray_out (by omega), getLe_putLe_out (by omega),
      getLe_putLe_out (by omega), getLe_putLe_out (by omega), getLe_putLe]
    exact Nat.mod_eq_of_lt h1
  · rw [getLe_putLe_out (by omega), getLe_putArray_out (by omega), getLe_putLe_out (by omega),
      getLe_putLe_out (by omega), getLe_putLe]
    exact Nat.mod_eq_of_lt h2
  · rw [getLe_putLe_out (by omega), getLe_putArray_out (by omega), getLe_putLe_out (by omega),
      getLe_putLe]
    exact Nat.mod_eq_of_lt h3
  · rw [getLe_putLe_out (by omega), getLe_putArray_out (by omega), getLe_putLe]
    exact Nat.mod_eq_of_lt h4
  · have hi := i.isLt
    rw [getLe_putLe_out (by omega), getLe_putArray hi, dif_pos hi]
    exact Nat.mod_eq_of_lt (h5 i)
  · rw [getLe_putLe]
    exact Nat.mod_eq_of_lt h6

/-- The bytes of an inode depend only on its own 64 bytes. -/
theorem SfsDiskInode.load_congr {m m' : Bytes} (h : ∀ i, i < 64 → m i = m' i) : load m = load m' := by
  have hget : ∀ a n, a + n ≤ 64 → getLe m a n = getLe m' a n :=
    fun a n ha => getLe_congr fun i _ hi => h i (by omega)
  refine SfsDiskInode.ext ?_ ?_ ?_ ?_ (funext fun i => ?_) ?_
  · exact hget _ _ (by omega)
  · exact hget _ _ (by omega)
  · exact hget _ _ (by omega)
  · exact hget _ _ (by omega)
  · exact hget _ _ (by omega)
  · exact hget _ _ (by omega)

end Ucore
