import Ucore.Fs.Sfs.Layout

/-!
# `Fs.Iobuf` — `kern/fs/iobuf.c`

A buffer with how much of it has been used. `ioBase` is a memory with a position in it.
-/

namespace Ucore

/-- `struct iobuf` -/
structure Iobuf where
  ioBase : Bytes × Nat
  ioOffset : Int
  ioLen : Nat
  ioResid : Nat

/-- `iobuf_used` -/
def Iobuf.used (iob : Iobuf) : Nat := iob.ioLen - iob.ioResid

def iobufInit (base : Bytes × Nat) (len : Nat) (offset : Int) : Iobuf :=
  { ioBase := base, ioOffset := offset, ioLen := len, ioResid := len }

variable {σ : Type}

def iobufSkip (iob : Iobuf) (n : Nat) : Proc SfsPanic Int σ Iobuf := do
  Proc.check .iobufSkip (n ≤ iob.ioResid)
  pure { iob with ioBase := (iob.ioBase.1, iob.ioBase.2 + n), ioOffset := iob.ioOffset + n, ioResid := iob.ioResid - n }

/-- Moves from the memory `data` into the buffer (`m2b`) or out of it, and returns its code and what is copied. -/
def iobufMove (iob : Iobuf) (data : Bytes) (d len : Nat) (m2b : Bool) :
    Proc SfsPanic Int σ (Int × Iobuf × Bytes × Nat) := do
  let alen := min iob.ioResid len
  if 0 < alen then do
    let base := if m2b = true then memcpy iob.ioBase.1 iob.ioBase.2 data d alen else iob.ioBase.1
    let data := if m2b = true then data else memcpy data d iob.ioBase.1 iob.ioBase.2 alen
    let iob ← iobufSkip { iob with ioBase := (base, iob.ioBase.2) } alen
    pure (if len - alen = 0 then 0 else -eNoMem, iob, data, alen)
  else pure (if len = 0 then 0 else -eNoMem, iob, data, alen)

end Ucore
