import Ucore.Fs.Sfs.SfsIo

/-!
# `Tools.Mksfs` — `tools/mksfs.c`, the program that makes a file system image

`mksfs` hands out block numbers one after the other and keeps inodes and index blocks in memory until
`close_sfs`; data blocks and directory entries go to the image at once. A `cache_block` and a
`cache_inode` are known here by their block number, which is theirs alone: a pointer to one is that number,
and the two hash tables list numbers.

The program ends early when `bug` reports an error or an assertion fails; both are `MkStop`. System calls
are taken to succeed. What a directory of the host holds comes in through the arguments of `MkOp`, one
constructor for what the callers do with an inode; `MkOp.run` in any order covers the walk of `open_dir`.
-/

namespace Ucore

/-- `SFS_MAX_NBLKS` -/
def sfsMaxNblks : Nat := 1024 * 512
/-- `SFS_BLKN_ROOT` -/
def sfsBlknRoot : Nat := 1
/-- `SFS_TYPE_LINK` -/
def sfsTypeLink : Nat := 3
/-- `SFS_L0_NBLKS`, `SFS_L1_NBLKS`, `SFS_L2_NBLKS` and `SFS_LN_NBLKS` -/
def sfsL0Nblks : Nat := sfsNdirect
def sfsL1Nblks : Nat := sfsBlkNentry + sfsL0Nblks
def sfsL2Nblks : Nat := sfsBlkNentry * sfsBlkNentry + sfsL1Nblks
def sfsLnNblks : Nat := sfsMaxFileSize / sfsBlksize
/-- `HASH_LIST_SIZE` -/
def hashListSize : Nat := 1024

/-- `hash32` -/
def hash32 (val : Nat) : Nat := val * 0x9e370001 % 2 ^ 32 / 2 ^ 22

/-- `hash64` -/
def hash64 (val : Nat) : Nat := hash32 (val % 2 ^ 32)

/-- The ends of the program that leave no image. -/
inductive MkStop where
  | imgTooSmall      -- `img file is too small`
  | outOfSpace       -- `out of disk space`
  | writeBlock       -- `write_block`: `assert(len <= SFS_BLKSIZE && ino < sfs->ninos)`
  | updateCache      -- `update_cache`: `assert(cb != NULL && cb->ino == ino)`
  | appendBlock      -- `append_block`: `assert(size <= SFS_BLKSIZE)`
  | fileTooBig       -- `file is too big`
  | addEntry         -- `add_entry`: the type of `current` and the length of the name
  | addDir           -- `add_dir`: `assert(search_cache_inode(sfs, real) == NULL)`
  | openFile         -- `open_file`: `assert(last == SFS_BLKSIZE)`
  | openLink         -- `read link failed`
  | loops            -- a loop that would not end
deriving DecidableEq

/-- `struct inode` -/
structure MkInode where
  size : Nat
  type : Nat
  nlinks : Nat
  blocks : Nat
  direct : Fin 12 → Nat
  indirect : Nat
  dbIndirect : Nat

/-- `sizeof(struct inode)` -/
def mkInodeSize : Nat := 68

/-- The bytes of a `struct inode`, placed at the start of `m`. -/
def MkInode.store (d : MkInode) (m : Bytes) : Bytes :=
  let m := putLe m 0 d.size 4
  let m := putLe m 4 d.type 2
  let m := putLe m 6 d.nlinks 2
  let m := putLe m 8 d.blocks 4
  let m := putArray m 12 (fun i => if h : i < 12 then d.direct ⟨i, h⟩ else 0) 4 12
  let m := putLe m 60 d.indirect 4
  putLe m 64 d.dbIndirect 4

/-- `struct cache_inode` -/
structure CacheInode where
  inode : MkInode
  real : Nat
  nblks : Nat
  l1 : Option Nat
  l2 : Option Nat

/-- The state of the program: `struct sfs_fs`, what its pointers lead to, the image, and the static
    `__entry` of `add_entry`. -/
structure Mksfs where
  super : SfsSuper
  ninos : Nat
  nextIno : Nat
  inodes : Nat → List Nat
  blocks : Nat → List Nat
  inodeAt : Nat → CacheInode
  cacheAt : Nat → Bytes
  img : Nat → Bytes
  entry : Bytes

abbrev MkM (α : Type) := Proc MkStop Empty Mksfs α

/-! ## Block numbers and caches -/

def sfsAllocIno : MkM Nat := do
  let sfs ← Proc.get
  if sfs.nextIno < sfs.ninos then do
    Proc.put { sfs with
      super := { sfs.super with unusedBlocks := sfs.super.unusedBlocks - 1 }, nextIno := sfs.nextIno + 1 }
    pure sfs.nextIno
  else Proc.stop .outOfSpace

/-- The list is chosen by the argument, not by the number of the block. -/
def allocCacheBlock (ino : Nat) : MkM Nat := do
  let cb ← if ino ≠ 0 then pure ino else sfsAllocIno
  Proc.modify fun sfs => { sfs with
    cacheAt := Function.update sfs.cacheAt cb fun _ => 0
    blocks := Function.update sfs.blocks (hash32 ino) (cb :: sfs.blocks (hash32 ino)) }
  pure cb

def searchCacheBlock (sfs : Mksfs) (ino : Nat) : Option Nat := (sfs.blocks (hash32 ino)).find? (· = ino)

/-- The inode that `alloc_cache_inode` starts from. -/
def MkInode.empty (type : Nat) : MkInode where
  size := 0
  type := type
  nlinks := 0
  blocks := 0
  direct := fun _ => 0
  indirect := 0
  dbIndirect := 0

def allocCacheInode (real ino type : Nat) : MkM Nat := do
  let ci ← if ino ≠ 0 then pure ino else sfsAllocIno
  Proc.modify fun sfs => { sfs with
    inodeAt := Function.update sfs.inodeAt ci
      { inode := MkInode.empty type, real := real, nblks := 0, l1 := none, l2 := none }
    inodes := Function.update sfs.inodes (hash64 real) (ci :: sfs.inodes (hash64 real)) }
  pure ci

def searchCacheInode (sfs : Mksfs) (real : Nat) : Option Nat :=
  (sfs.inodes (hash64 real)).find? fun ci => (sfs.inodeAt ci).real = real

/-- `data`, filled up with zeros to a block, goes to block `ino` of the image. -/
def writeBlock (data : Bytes) (len ino : Nat) : MkM Unit := do
  let sfs ← Proc.get
  Proc.check .writeBlock (len ≤ sfsBlksize ∧ ino < sfs.ninos)
  Proc.put { sfs with img := Function.update sfs.img ino (memcpy (fun _ => 0) 0 data 0 len) }

/-! ## Starting an image -/

/-- The bytes of a string, without its NUL. -/
def strBytes (name : List UInt8) : Bytes := fun i => name.getD i 0

/-- `simple file system` -/
def mkInfo : List UInt8 := [115, 105, 109, 112, 108, 101, 32, 102, 105, 108, 101, 32, 115, 121, 115, 116, 101, 109]

/-- `create_sfs`, of an image file of `size` bytes with the content `img`. -/
def createSfs (size : Nat) (img : Nat → Bytes) : Except MkStop Mksfs :=
  let ninos := size / sfsBlksize % 2 ^ 32
  let ninos := if sfsMaxNblks < ninos then sfsMaxNblks else ninos
  let nextIno := sfsBlknFreemap + (ninos + sfsBlkbits - 1) / sfsBlkbits
  if ninos ≤ nextIno then .error .imgTooSmall
  else
    let root : CacheInode :=
      { inode := MkInode.empty sfsTypeDir, real := 0, nblks := 0, l1 := none, l2 := none }
    .ok {
      super := {
        magic := sfsMagic, blocks := ninos, unusedBlocks := ninos - nextIno
        info := fun i => strBytes mkInfo i }
      ninos := ninos
      nextIno := nextIno
      inodes := Function.update (fun _ => []) (hash64 0) [sfsBlknRoot]
      blocks := fun _ => []
      inodeAt := Function.update (fun _ => { root with inode := MkInode.empty 0 }) sfsBlknRoot root
      cacheAt := fun _ _ => 0
      img := img
      entry := fun _ => 0 }

/-! ## Files -/

/-- `update_cache(sfs, cbp, inop)`: afterwards `*cbp` is the block of the number returned, and so is `*inop`. -/
def updateCache (cb : Option Nat) (ino : Nat) : MkM Nat := do
  if ino = 0 then allocCacheBlock 0
  else if cb ≠ some ino then do
    let sfs ← Proc.get
    match searchCacheBlock sfs ino with
    | some cb => pure cb
    | none    => Proc.stop .updateCache
  else pure ino

def setInode (file : Nat) (ci : CacheInode) : MkM Unit :=
  Proc.modify fun sfs => { sfs with inodeAt := Function.update sfs.inodeAt file ci }

/-- `data[i] = ino`, in the cache of block `cb`. -/
def setCache (cb i ino : Nat) : MkM Unit :=
  Proc.modify fun sfs => { sfs with
    cacheAt := Function.update sfs.cacheAt cb (putLe (sfs.cacheAt cb) (4 * i) ino 4) }

/-- `update_cache(sfs, &(file->l1), &(inode->indirect))` -/
def updateIndirect (file : Nat) : MkM Nat := do
  let sfs ← Proc.get
  let ci := sfs.inodeAt file
  let l1 ← updateCache ci.l1 ci.inode.indirect
  setInode file { ci with l1 := some l1, inode := { ci.inode with indirect := l1 } }
  pure l1

/-- `update_cache(sfs, &(file->l2), &(inode->db_indirect))` -/
def updateDbIndirect (file : Nat) : MkM Nat := do
  let sfs ← Proc.get
  let ci := sfs.inodeAt file
  let l2 ← updateCache ci.l2 ci.inode.dbIndirect
  setInode file { ci with l2 := some l2, inode := { ci.inode with dbIndirect := l2 } }
  pure l2

/-- `update_cache(sfs, &(file->l1), &data2[i])`, where `data2` is the cache of block `l2`. -/
def updateDbEntry (file l2 i : Nat) : MkM Nat := do
  let sfs ← Proc.get
  let ci := sfs.inodeAt file
  let l1 ← updateCache ci.l1 (getLe (sfs.cacheAt l2) (4 * i) 4)
  setInode file { ci with l1 := some l1 }
  setCache l2 i l1
  pure l1

/-- The part of `append_block` that enters the block. -/
def appendEntry (file ino : Nat) : MkM Unit := do
  let sfs ← Proc.get
  let ci := sfs.inodeAt file
  let nblks := ci.nblks
  if h : nblks < 12 then
    setInode file { ci with inode := { ci.inode with direct := Function.update ci.inode.direct ⟨nblks, h⟩ ino } }
  else if nblks < sfsL1Nblks then do
    let nblks := nblks - sfsL0Nblks
    let l1 ← updateIndirect file
    setCache l1 nblks ino
  else if nblks < sfsL2Nblks then do
    let nblks := nblks - sfsL1Nblks
    let l2 ← updateDbIndirect file
    let l1 ← updateDbEntry file l2 (nblks / sfsBlkNentry)
    setCache l1 (nblks % sfsBlkNentry) ino
  else pure ()

def appendBlock (file size ino : Nat) : MkM Unit := do
  Proc.check .appendBlock (size ≤ sfsBlksize)
  let sfs ← Proc.get
  if sfsLnNblks ≤ (sfs.inodeAt file).nblks then Proc.stop .fileTooBig
  else do
    appendEntry file ino
    let sfs ← Proc.get
    let ci := sfs.inodeAt file
    setInode file { ci with
      nblks := ci.nblks + 1, inode := { ci.inode with size := ci.inode.size + size, blocks := ci.inode.blocks + 1 } }

/-- `strcpy(entry->name, name)`, with the name at byte 4 of the entry. -/
def entryStore (entry : Bytes) (ino : Nat) (name : List UInt8) : Bytes :=
  memcpy (putLe entry 0 ino 4) 4 (strBytes name) 0 (name.length + 1)

def addEntry (current file : Nat) (name : List UInt8) : MkM Unit := do
  let sfs ← Proc.get
  Proc.check .addEntry ((sfs.inodeAt current).inode.type = sfsTypeDir ∧ name.length ≤ sfsMaxFnameLen)
  let entry := entryStore sfs.entry file name
  Proc.put { sfs with entry := entry }
  let entryIno ← sfsAllocIno
  writeBlock entry sfsDentrySize entryIno
  appendBlock current sfsDentrySize entryIno
  let sfs ← Proc.get
  let ci := sfs.inodeAt file
  setInode file { ci with inode := { ci.inode with nlinks := (ci.inode.nlinks + 1) % 2 ^ 16 } }

/-- `open_file`; `reads` is what the calls of `read` return until the end of the file. -/
def openFile (file last : Nat) : List (List UInt8) → MkM Unit
  | []             => pure ()
  | buffer :: rest => do
    Proc.check .openFile (last = sfsBlksize)
    let ino ← sfsAllocIno
    writeBlock (strBytes buffer) buffer.length ino
    appendBlock file buffer.length ino
    openFile file buffer.length rest

/-- `open_link`; `target` is what `readlink` returns. -/
def openLink (file : Nat) (target : List UInt8) : MkM Unit := do
  let ino ← sfsAllocIno
  if target.length = sfsBlksize then Proc.stop .openLink
  else do
    writeBlock (strBytes target) target.length ino
    appendBlock file target.length ino

/-! ## The walk over the host's directories -/

/-- What the walk does: `add_dir` starts a directory and enters it later; `add_file` and `add_link` make an
    inode unless there is one for the same host file, and enter it. -/
inductive MkOp where
  | newDir (real : Nat)
  | newFile (real : Nat) (reads : List (List UInt8))
  | newLink (real : Nat) (target : List UInt8)
  | addEntry (current file : Nat) (name : List UInt8)

def MkOp.run : MkOp → MkM Unit
  | .newDir real                  => do
    let sfs ← Proc.get
    Proc.check .addDir (searchCacheInode sfs real = none)
    let _ ← allocCacheInode real 0 sfsTypeDir
  | .newFile real reads           => do
    let sfs ← Proc.get
    if searchCacheInode sfs real = none then do
      let file ← allocCacheInode real 0 sfsTypeFile
      openFile file sfsBlksize reads
    else pure ()
  | .newLink real target          => do
    let file ← allocCacheInode real 0 sfsTypeLink
    openLink file target
  | .addEntry current file name   => Ucore.addEntry current file name

/-! ## Finishing the image -/

/-- `for (j = start; j < end; j ++) data[j / bits] |= (1 << (j % bits))` -/
def closeSetBits (data : Bitmap) (j : Nat) : Nat → Bitmap
  | 0     => data
  | n + 1 => closeSetBits (data.raise j) (j + 1) n

/-- The block of the free map that starts with the bit of block `i`. -/
def closeFreemapBlock (ninos nextIno i : Nat) : Bitmap :=
  let buffer : Bitmap := { nbits := sfsBlkbits, nwords := sfsBlkbits / 32, map := fun _ => 0#32 }
  if nextIno < i + sfsBlkbits then
    let start := if i < nextIno then nextIno - i else 0
    let end' := if ninos < i + sfsBlkbits then ninos - i else sfsBlkbits
    closeSetBits buffer start (end' - start)
  else buffer

/-- `for (i = 0; i < ninos; ino ++, i += SFS_BLKBITS)` -/
def closeFreemap (ino i : Nat) : Nat → MkM Unit
  | 0        => Proc.stop .loops
  | fuel + 1 => do
    let sfs ← Proc.get
    if i < sfs.ninos then do
      writeBlock (bitmapGetdata (closeFreemapBlock sfs.ninos sfs.nextIno i)) sfsBlksize ino
      closeFreemap (ino + 1) (i + sfsBlkbits) fuel
    else pure ()

/-- The blocks of one hash list. -/
def flushCacheBlocks : List Nat → MkM Unit
  | []         => pure ()
  | cb :: rest => do
    let sfs ← Proc.get
    writeBlock (sfs.cacheAt cb) sfsBlksize cb
    flushCacheBlocks rest

/-- The inodes of one hash list. -/
def flushCacheInodes : List Nat → MkM Unit
  | []         => pure ()
  | ci :: rest => do
    let sfs ← Proc.get
    writeBlock ((sfs.inodeAt ci).inode.store fun _ => 0) mkInodeSize ci
    flushCacheInodes rest

/-- `for (i = 0; i < HASH_LIST_SIZE; i ++)` -/
def flushLists (i : Nat) : Nat → MkM Unit
  | 0     => pure ()
  | n + 1 => do
    let sfs ← Proc.get
    flushCacheBlocks (sfs.blocks i)
    let sfs ← Proc.get
    flushCacheInodes (sfs.inodes i)
    flushLists (i + 1) n

def closeSfs : MkM Unit := do
  let sfs ← Proc.get
  closeFreemap sfsBlknFreemap 0 (sfs.ninos + 1)
  let sfs ← Proc.get
  writeBlock (sfs.super.store fun _ => 0) sfsSuperSize sfsBlknSuper
  flushLists 0 hashListSize

end Ucore
