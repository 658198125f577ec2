import Ucore.Fs.Iobuf
import Ucore.Fs.Sfs.SfsIo

/-!
# `Fs.Sfs.SfsInode` — `kern/fs/sfs/sfs_inode.c`, inodes and file data

The functions below the inode lock work on the file system and one in-memory inode (`SfsCtx`). Offsets
are `off_t`, so they may be negative; block numbers and sizes are unsigned.

`sfs_io_nolock` returns its count and the buffer also when it fails, so it hands back an `IoResult`; the
`goto out` of its three phases is a phase that ends with a return code other than 0.
-/

namespace Ucore

/-! ## Blocks -/

def sfsBlockInuse (ino : Nat) : SfsM Bool := do
  let s ← Proc.get
  if ino ≠ 0 ∧ ino < s.super.blocks then do
    let t ← onFreemap (bitmapTest ino)
    pure (!t)
  else Proc.stop .blockInuse

/-- `assert(sfs_block_inuse(sfs, ino))` -/
def assertInuse (p : SfsPanic) (ino : Nat) : SfsM Unit := do
  let inuse ← sfsBlockInuse ino
  Proc.check p (inuse = true)

def sfsBlockAlloc : SfsM Nat := do
  let ino ← onFreemap bitmapAlloc
  let s ← Proc.get
  Proc.check .blockAllocUnused (0 < s.super.unusedBlocks)
  Proc.modify fun s =>
    { s with super := { s.super with unusedBlocks := s.super.unusedBlocks - 1 }, superDirty := true }
  assertInuse .blockAllocInuse ino
  sfsClearBlock ino 1
  pure ino

def sfsBlockFree (ino : Nat) : SfsM Unit := do
  assertInuse .blockFree ino
  onFreemap (bitmapFree ino)
  Proc.modify fun s =>
    { s with super := { s.super with unusedBlocks := s.super.unusedBlocks + 1 }, superDirty := true }

/-! ## The block map -/

/-- A file system and one of its in-memory inodes. -/
structure SfsCtx where
  fs : SfsFs
  sin : SfsInode

abbrev SinM (α : Type) := Proc SfsPanic Int SfsCtx α

def onFs {α : Type} (x : SfsM α) : SinM α := Proc.zoom SfsCtx.fs (fun fs c => { c with fs := fs }) x

def modifyDin (f : SfsDiskInode → SfsDiskInode) : SinM Unit :=
  Proc.modify fun c => { c with sin := { c.sin with din := f c.sin.din } }

def setDirty (dirty : Bool) : SinM Unit := Proc.modify fun c => { c with sin := { c.sin with dirty := dirty } }

/-- Reading a `uint32_t` entry of an entry block into a local variable. -/
def sfsRbufEntry (ent offset : Nat) : SfsM Nat := do
  let x ← sfsRbuf (fun _ => 0) 0 4 ent offset
  pure (getLe x 0 4)

/-- Writing a local `uint32_t` variable to an entry of an entry block. -/
def sfsWbufEntry (ino ent offset : Nat) : SfsM Unit := sfsWbuf (putLe (fun _ => 0) 0 ino 4) 0 4 ent offset

/-- `failed_cleanup` of `sfs_bmap_get_sub_nolock`: give back an entry block allocated by this call. -/
def bmapCleanup (entp ent : Nat) : SfsM Unit := if ent ≠ entp then sfsBlockFree ent else pure ()

/-- The part of `sfs_bmap_get_sub_nolock` that allocates a block and enters it. -/
def bmapNewEntry (entp ent offset : Nat) : SfsM (Nat × Nat) := do
  let ino ← Proc.onErr sfsBlockAlloc (bmapCleanup entp ent)
  Proc.onErr (sfsWbufEntry ino ent offset) (do
    sfsBlockFree ino
    bmapCleanup entp ent)
  pure (ent, ino)

/-- Returns the entry block and the block entered there (`*entp` and `*ino_store`). -/
def sfsBmapGetSubNolock (entp index : Nat) (create : Bool) : SfsM (Nat × Nat) := do
  Proc.check .bmapGetSub (index < sfsBlkNentry)
  let offset := index * 4
  if entp ≠ 0 then do
    let ino ← sfsRbufEntry entp offset
    if ino ≠ 0 ∨ create = false then pure (entp, ino)
    else bmapNewEntry entp entp offset
  else if create = false then pure (entp, 0)
  else do
    let ent ← sfsBlockAlloc
    bmapNewEntry entp ent offset

/-- The direct half of `sfs_bmap_get_nolock`. -/
def bmapGetDirect (index : Fin 12) (create : Bool) : SinM Nat := do
  let c ← Proc.get
  if c.sin.din.direct index = 0 ∧ create = true then do
    let ino ← onFs sfsBlockAlloc
    modifyDin fun din => { din with direct := Function.update din.direct index ino }
    setDirty true
    pure ino
  else pure (c.sin.din.direct index)

/-- The indirect half of `sfs_bmap_get_nolock`; `index` counts from the first indirect block. -/
def bmapGetIndirect (index : Nat) (create : Bool) : SinM Nat := do
  let c ← Proc.get
  let (ent, ino) ← onFs (sfsBmapGetSubNolock c.sin.din.indirect index create)
  if ent ≠ c.sin.din.indirect then do
    Proc.check .bmapGetIndirect (c.sin.din.indirect = 0)
    modifyDin fun din => { din with indirect := ent }
    setDirty true
    pure ino
  else pure ino

def sfsBmapGetNolock (index : Nat) (create : Bool) : SinM Nat := do
  let ino ←
    if h : index < 12 then bmapGetDirect ⟨index, h⟩ create
    else if index - sfsNdirect < sfsBlkNentry then bmapGetIndirect (index - sfsNdirect) create
    else Proc.stop .indexOutOfRange
  if ino = 0 then pure ino
  else do
    onFs (assertInuse .bmapGetInuse ino)
    pure ino

def sfsBmapFreeSubNolock (ent index : Nat) : SfsM Unit := do
  assertInuse .bmapFreeSub ent
  Proc.check .bmapFreeSub (index < sfsBlkNentry)
  let offset := index * 4
  let ino ← sfsRbufEntry ent offset
  if ino ≠ 0 then do
    sfsWbufEntry 0 ent offset
    sfsBlockFree ino
  else pure ()

def sfsBmapFreeNolock (index : Nat) : SinM Unit := do
  let c ← Proc.get
  if h : index < 12 then
    if c.sin.din.direct ⟨index, h⟩ ≠ 0 then do
      onFs (sfsBlockFree (c.sin.din.direct ⟨index, h⟩))
      modifyDin fun din => { din with direct := Function.update din.direct ⟨index, h⟩ 0 }
      setDirty true
    else pure ()
  else if index - sfsNdirect < sfsBlkNentry then
    if c.sin.din.indirect ≠ 0 then onFs (sfsBmapFreeSubNolock c.sin.din.indirect (index - sfsNdirect))
    else pure ()
  else pure ()

def sfsBmapLoadNolock (index : Nat) : SinM Nat := do
  let c ← Proc.get
  Proc.check .bmapLoadIndex (index ≤ c.sin.din.blocks)
  let create := decide (index = c.sin.din.blocks)
  let ino ← sfsBmapGetNolock index create
  onFs (assertInuse .bmapLoadInuse ino)
  if create = true then do
    modifyDin fun din => { din with blocks := din.blocks + 1 }
    pure ino
  else pure ino

def sfsBmapTruncateNolock : SinM Unit := do
  let c ← Proc.get
  Proc.check .bmapTruncate (c.sin.din.blocks ≠ 0)
  sfsBmapFreeNolock (c.sin.din.blocks - 1)
  modifyDin fun din => { din with blocks := din.blocks - 1 }
  setDirty true

/-! ## Reading and writing -/

/-- What `sfs_io_nolock` hands back: its return value, `*alenp`, and the buffer. -/
structure IoResult where
  ret : Int
  alen : Nat
  buf : Bytes

/-- The local variables of `sfs_io_nolock` (`data` is `buf + alen`). -/
structure IoVars where
  offset : Nat
  alen : Nat
  blkno : Nat
  buf : Bytes

/-- `sfs_buf_op` -/
def sfsBufOp (write : Bool) (buf : Bytes) (d size ino blkoff : Nat) : SfsM Bytes :=
  if write then do
    sfsWbuf buf d size ino blkoff
    pure buf
  else sfsRbuf buf d size ino blkoff

/-- `sfs_block_op`, of one block -/
def sfsBlockOp (write : Bool) (buf : Bytes) (d ino : Nat) : SfsM Bytes :=
  if write then sfsWblock buf d ino 1 else sfsRblock buf d ino 1

/-- STEP 1, the unaligned start. -/
def ioHead (write : Bool) (endpos nblks : Nat) (v : IoVars) : SinM (Int × IoVars) := do
  let blkoff := v.offset % sfsBlksize
  if blkoff ≠ 0 then do
    let size := if nblks ≠ 0 then sfsBlksize - blkoff else endpos - v.offset
    let r ← Proc.attempt (do
      let ino ← sfsBmapLoadNolock v.blkno
      onFs (sfsBufOp write v.buf v.alen size ino blkoff))
    match r with
    | .error ret => pure (ret, v)
    | .ok buf    =>
      pure (0, { offset := v.offset + size, alen := v.alen + size, blkno := v.blkno + 1, buf := buf })
  else pure (0, v)

/-- STEP 2, the full aligned blocks. -/
def ioBody (write : Bool) (endpos : Nat) : Nat → IoVars → SinM (Int × IoVars)
  | 0, _        => Proc.stop .loops
  | fuel + 1, v =>
    if v.offset + sfsBlksize ≤ endpos then do
      let r ← Proc.attempt (do
        let ino ← sfsBmapLoadNolock v.blkno
        onFs (sfsBlockOp write v.buf v.alen ino))
      match r with
      | .error ret => pure (ret, v)
      | .ok buf    =>
        ioBody write endpos fuel { offset := v.offset + sfsBlksize, alen := v.alen + sfsBlksize,
                                   blkno := v.blkno + 1, buf := buf }
    else pure (0, v)

/-- STEP 3, the unaligned end. `offset` is not advanced. -/
def ioTail (write : Bool) (endpos : Nat) (v : IoVars) : SinM (Int × IoVars) :=
  if v.offset < endpos then do
    let size := endpos - v.offset
    let r ← Proc.attempt (do
      let ino ← sfsBmapLoadNolock v.blkno
      onFs (sfsBufOp write v.buf v.alen size ino 0))
    match r with
    | .error ret => pure (ret, v)
    | .ok buf    => pure (0, { v with alen := v.alen + size, buf := buf })
  else pure (0, v)

/-- `if (ret != 0) goto out;` between two phases. -/
def ioThen (x : SinM (Int × IoVars)) (f : IoVars → SinM (Int × IoVars)) : SinM (Int × IoVars) := do
  let (ret, v) ← x
  if ret ≠ 0 then pure (ret, v) else f v

/-- The three steps of `sfs_io_nolock`, up to the label `out`. -/
def ioSteps (write : Bool) (endpos : Nat) (v : IoVars) : SinM (Int × IoVars) :=
  let nblks := endpos / sfsBlksize - v.blkno
  ioThen (ioThen (ioHead write endpos nblks v) (ioBody write endpos (endpos / sfsBlksize + 1)))
    (ioTail write endpos)

/-- The label `out` of `sfs_io_nolock`: the file reaches at least to `offset + alen`. -/
def ioOut (ret : Int) (v : IoVars) : SinM IoResult := do
  let c ← Proc.get
  if c.sin.din.size < v.offset + v.alen then do
    modifyDin fun din => { din with size := v.offset + v.alen }
    setDirty true
    pure { ret := ret, alen := v.alen, buf := v.buf }
  else pure { ret := ret, alen := v.alen, buf := v.buf }

/-- `endpos = offset + *alenp`, as an `off_t`. -/
def ioEndpos (offset : Int) (alen : Nat) : Int := Int.bmod (offset + alen) (2 ^ 64)

def sfsIoNolock (buf : Bytes) (offset : Int) (alen : Nat) (write : Bool) : SinM IoResult := do
  let c ← Proc.get
  Proc.check .ioType (c.sin.din.type ≠ sfsTypeDir)
  let endpos := ioEndpos offset alen
  if offset < 0 ∨ (sfsMaxFileSize : Int) ≤ offset ∨ endpos < offset then
    pure { ret := -eInval, alen := 0, buf := buf }
  else if offset = endpos then pure { ret := 0, alen := 0, buf := buf }
  else
    let endpos := min endpos.toNat sfsMaxFileSize
    let offset := offset.toNat
    if write = false ∧ c.sin.din.size ≤ offset then pure { ret := 0, alen := 0, buf := buf }
    else do
      let endpos := if write = false then min endpos c.sin.din.size else endpos
      let (ret, v) ← ioSteps write endpos
        { offset := offset, alen := 0, blkno := offset / sfsBlksize, buf := buf }
      ioOut ret v

/-! ## Seeking and truncation -/

/-- The growing loop of `sfs_truncfile`. -/
def truncfileGrow : Nat → Nat → SinM Unit
  | _, 0         => pure ()
  | nblks, n + 1 => do
    let _ ← sfsBmapLoadNolock nblks
    truncfileGrow (nblks + 1) n

/-- The shrinking loop of `sfs_truncfile`. -/
def truncfileShrink : Nat → SinM Unit
  | 0     => pure ()
  | n + 1 => do
    sfsBmapTruncateNolock
    truncfileShrink n

def sfsTruncfile (len : Int) : SinM Unit := do
  if len < 0 ∨ (sfsMaxFileSize : Int) < len then Proc.fail (-eInval)
  else do
    let len := len.toNat
    let tblks := roundupDiv len sfsBlksize
    let c ← Proc.get
    if c.sin.din.size = len then Proc.check .truncfileSame (tblks = c.sin.din.blocks)
    else do
      let nblks := c.sin.din.blocks
      if nblks < tblks then truncfileGrow nblks (tblks - nblks)
      else truncfileShrink (nblks - tblks)
      let c ← Proc.get
      Proc.check .truncfileBlocks (c.sin.din.blocks = tblks)
      modifyDin fun din => { din with size := len }
      setDirty true

def sfsTryseek (pos : Int) : SinM Unit := do
  if pos < 0 ∨ (sfsMaxFileSize : Int) ≤ pos then Proc.fail (-eInval)
  else do
    let c ← Proc.get
    if (c.sin.din.size : Int) < pos then sfsTruncfile pos else pure ()

/-! ## Directories -/

/-- `strcmp` of a string, given without its NUL, with the one that starts at `m + i`. -/
def strcmp : List UInt8 → Bytes → Nat → Int
  | [], m, i     => -(m i).toNat
  | c :: s, m, i => if c = m i then strcmp s m (i + 1) else (c.toNat : Int) - (m i).toNat

/-- `entry` is what the caller's `struct sfs_disk_entry` holds; each entry has a block of its own. -/
def sfsDirentReadNolock (slot : Nat) (entry : Bytes) : SinM Bytes := do
  let c ← Proc.get
  Proc.check .direntRead (c.sin.din.type = sfsTypeDir ∧ slot < c.sin.din.blocks)
  let ino ← sfsBmapLoadNolock slot
  onFs (assertInuse .direntReadInuse ino)
  let entry ← onFs (sfsRbuf entry 0 sfsDiskEntrySize ino 0)
  pure (Function.update entry (4 + sfsMaxFnameLen) 0)

/-- What `sfs_dirent_search_nolock` hands back: its return value, and what it stores through `ino_store`,
    `slot` and `empty_slot`, if anything. -/
structure DirentSearch where
  ret : Int
  ino : Option Nat
  slot : Option Nat
  emptySlot : Option Nat

/-- `for (i = 0; i < nslots; i ++)` -/
def direntSearchLoop (name : List UInt8) (entry : Bytes) (emptySlot i : Nat) : Nat → SinM DirentSearch
  | 0     => pure { ret := -eNoEnt, ino := none, slot := none, emptySlot := some emptySlot }
  | n + 1 => do
    let r ← Proc.attempt (sfsDirentReadNolock i entry)
    match r with
    | .error ret => pure { ret := ret, ino := none, slot := none, emptySlot := some emptySlot }
    | .ok entry  =>
      let ino := getLe entry 0 4
      if ino = 0 then direntSearchLoop name entry i (i + 1) n
      else if strcmp name entry 4 = 0 then
        pure { ret := 0, ino := some ino, slot := some i, emptySlot := some emptySlot }
      else direntSearchLoop name entry emptySlot (i + 1) n

/-- `entry` is what `kmalloc` returns. -/
def sfsDirentSearchNolock (name : List UInt8) (entry : Option Bytes) : SinM DirentSearch := do
  Proc.check .direntSearchName (name.length ≤ sfsMaxFnameLen)
  match entry with
  | none       => pure { ret := -eNoMem, ino := none, slot := none, emptySlot := none }
  | some entry => do
    let c ← Proc.get
    let nslots := c.sin.din.blocks
    direntSearchLoop name entry nslots 0 nslots

/-- The loop of `sfs_getdirentry_sub_nolock`: `slot` counts the entries that are not empty. -/
def getdirentrySubLoop (slot : Int) (entry : Bytes) (i : Nat) : Nat → SinM Bytes
  | 0     => Proc.fail (-eNoEnt)
  | n + 1 => do
    let entry ← sfsDirentReadNolock i entry
    if getLe entry 0 4 ≠ 0 then
      if slot = 0 then pure entry else getdirentrySubLoop (slot - 1) entry (i + 1) n
    else getdirentrySubLoop slot entry (i + 1) n

def sfsGetdirentrySubNolock (slot : Int) (entry : Bytes) : SinM Bytes := do
  let c ← Proc.get
  let nslots := c.sin.din.blocks
  getdirentrySubLoop slot entry 0 nslots

/-- Its return value, and the buffer. `entry` is what `kmalloc` returns; `slot` is an `int`, compared as an unsigned one. -/
def sfsGetdirentry (entry : Option Bytes) (iob : Iobuf) : SinM (Int × Iobuf) := do
  match entry with
  | none       => pure (-eNoMem, iob)
  | some entry =>
    if iob.ioOffset < 0 ∨ iob.ioOffset % sfsDentrySize ≠ 0 then pure (-eInval, iob)
    else do
      let slot := Int.bmod (iob.ioOffset / sfsDentrySize) (2 ^ 32)
      let c ← Proc.get
      if (c.sin.din.blocks : Int) < slot % 2 ^ 32 then pure (-eNoEnt, iob)
      else do
        let r ← Proc.attempt (sfsGetdirentrySubNolock slot entry)
        match r with
        | .error ret => pure (ret, iob)
        | .ok entry  => do
          let (ret, iob, _, _) ← iobufMove iob entry 4 sfsDentrySize true
          pure (ret, iob)

/-! ## Inodes in memory -/

/-- `vop_init` in `sfs_create_inode` takes the operations that go with the type. -/
def sfsGetOps (type : Nat) : SfsM Unit := Proc.check .invalidType (type = sfsTypeDir ∨ type = sfsTypeFile)

/-- `mem` says whether `alloc_inode` succeeds. -/
def sfsCreateInode (mem : Bool) (din : SfsDiskInode) (ino : Nat) : SfsM SfsInode :=
  if mem = true then do
    sfsGetOps din.type
    pure { din := din, ino := ino, dirty := false, reclaimCount := 1, refCount := 1 }
  else Proc.fail (-eNoMem)

/-- `sfs_load_inode` of an inode that `lookup_sfs_nolock` does not find; `kmalloc 0` and `kmalloc 1` say
    whether there is memory for `din` and for the inode. -/
def loadInodeMiss (kmalloc : Nat → Bool) (ino : Nat) : SfsM SfsInode :=
  if kmalloc 0 = false then Proc.fail (-eNoMem)
  else do
    assertInuse .loadInodeInuse ino
    let x ← sfsRbuf (fun _ => 0) 0 sfsDiskInodeSize ino 0
    let din := SfsDiskInode.load x
    Proc.check .loadInodeNlinks (din.nlinks ≠ 0)
    sfsCreateInode (kmalloc 1) din ino

/-! ## Writing the inode back -/

def sfsFsync : SinM Unit := do
  let c ← Proc.get
  if c.sin.dirty = true then do
    setDirty false
    Proc.onErr (onFs (sfsWbuf (c.sin.din.store fun _ => 0) 0 sfsDiskInodeSize c.sin.ino 0)) (setDirty true)
  else pure ()

end Ucore
