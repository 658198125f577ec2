import Ucore.Lib.Bytes
import Ucore.Libs.String

/-!
# `Driver.Dtb` — `kern/driver/dtb.c`, the memory from the device tree

The scan reads memory through a `View`, which says what it may read; a read of anything else stops it. The code has no such
check: with everything readable the scan is the code's own, and with the blocks of a device tree it stops exactly where the code
leaves them. Pointers are `uintptr_t`, so aligning one takes its value modulo `2 ^ 64`; the length of a name is an `int`.
-/

namespace Ucore.Dtb

inductive DtbStop where
  | outside (a : Nat)
  | loops
deriving DecidableEq

abbrev DtbM := Except DtbStop

/-- The memory, and what of it may be read. -/
structure View where
  mem : Bytes
  readable : Nat → Bool

def View.byte (v : View) (a : Nat) : DtbM UInt8 := if v.readable a = true then .ok (v.mem a) else .error (.outside a)

/-- A little-endian number of `n` bytes -/
def View.load (v : View) (a n : Nat) : DtbM Nat :=
  if ∀ i < n, v.readable (a + i) = true then .ok (getLe v.mem a n) else .error (.outside a)

/-! ## Numbers and strings -/

def fdt32ToCpu (x : Nat) : Nat :=
  ((x &&& 0xff) <<< 24) ||| (((x >>> 8) &&& 0xff) <<< 16) ||| (((x >>> 16) &&& 0xff) <<< 8) ||| ((x >>> 24) &&& 0xff)

def fdt64ToCpu (x : Nat) : Nat := (fdt32ToCpu (x &&& 0xffffffff) <<< 32) ||| fdt32ToCpu (x >>> 32)

/-- `strlen(s)`, with `cnt` characters counted. -/
def strlen (v : View) : Nat → Nat → Nat → DtbM Nat
  | 0, _, _           => .error .loops
  | fuel + 1, s, cnt => do
    let ch ← v.byte s
    if ch ≠ 0 then strlen v fuel (s + 1) (cnt + 1) else .ok cnt

/-- `strncmp(s1, s2, n)` -/
def strncmp (v : View) : Nat → Nat → List UInt8 → DtbM Int
  | 0, _, _       => .ok 0
  | n + 1, s1, s2 => do
    let ch ← v.byte s1
    if ch ≠ 0 ∧ ch = s2.headD 0 then strncmp v n (s1 + 1) s2.tail else .ok ((ch.toNat : Int) - (s2.headD 0).toNat)

/-- `strcmp(s1, s2)` -/
def strcmp (v : View) : Nat → List UInt8 → DtbM Int
  | s1, []      => do
    let ch ← v.byte s1
    .ok ch.toNat
  | s1, c :: s2 => do
    let ch ← v.byte s1
    if ch ≠ 0 ∧ ch = c then strcmp v (s1 + 1) s2 else .ok ((ch.toNat : Int) - c.toNat)

/-- `x & ~3` of a `uintptr_t` -/
def align4 (x : Int) : Nat := (x % 2 ^ 64).toNat / 4 * 4

def memoryName : List UInt8 := (CString.lit "memory").chars

def regName : List UInt8 := (CString.lit "reg").chars

/-! ## The scan -/

def fdtBeginNode : Nat := 1
def fdtEndNode : Nat := 2
def fdtProp : Nat := 3
def fdtNop : Nat := 4
def fdtEnd : Nat := 9

/-- `struct_ptr` and `in_memory_node` -/
structure Scan where
  ptr : Nat
  inMemory : Bool

/-- A turn of the loop goes on with the next token, or returns: 0 with base and size, or -1. -/
inductive Turn where
  | next (s : Scan)
  | ret (r : Option (Nat × Nat))

/-- `case FDT_BEGIN_NODE`, behind the token -/
def beginNode (fuel : Nat) (v : View) (ptr : Nat) (inMemory : Bool) : DtbM Turn := do
  let len ← strlen v fuel ptr 0
  let nameLen := Int.bmod len (2 ^ 32)
  let cmp ← strncmp v 6 ptr memoryName
  .ok (.next { ptr := align4 (ptr + nameLen + 4), inMemory := if cmp = 0 then true else inMemory })

/-- `in_memory_node && strcmp(prop_name, "reg") == 0 && prop_len >= 16` -/
def isReg (v : View) (propName propLen : Nat) (inMemory : Bool) : DtbM Bool :=
  if inMemory = true then do
    let cmp ← strcmp v propName regName
    .ok (decide (cmp = 0 ∧ 16 ≤ propLen))
  else .ok false

/-- `case FDT_PROP`, behind the token -/
def prop (v : View) (strings ptr : Nat) (inMemory : Bool) : DtbM Turn := do
  let len ← v.load ptr 4
  let nameoff ← v.load (ptr + 4) 4
  let data := ptr + 8
  let found ← isReg v (strings + fdt32ToCpu nameoff) (fdt32ToCpu len) inMemory
  if found = true then do
    let base ← v.load data 8
    let size ← v.load (data + 8) 8
    .ok (.ret (some (fdt64ToCpu base, fdt64ToCpu size)))
  else .ok (.next { ptr := align4 (data + fdt32ToCpu len + 3), inMemory := inMemory })

/-- A turn of `while (1)` -/
def turn (fuel : Nat) (v : View) (strings : Nat) (s : Scan) : DtbM Turn := do
  let word ← v.load s.ptr 4
  let token := fdt32ToCpu word
  if token = fdtBeginNode then beginNode fuel v (s.ptr + 4) s.inMemory
  else if token = fdtEndNode then .ok (.next { ptr := s.ptr + 4, inMemory := false })
  else if token = fdtProp then prop v strings (s.ptr + 4) s.inMemory
  else if token = fdtNop then .ok (.next { s with ptr := s.ptr + 4 })
  else .ok (.ret none)

def scan (v : View) (strings : Nat) : Nat → Scan → DtbM (Option (Nat × Nat))
  | 0, _        => .error .loops
  | fuel + 1, s => do
    let o ← turn fuel v strings s
    match o with
    | .ret r  => .ok r
    | .next s => scan v strings fuel s

/-- `struct fdt_header`, as it is in memory -/
structure FdtHeader where
  magic : Nat
  totalsize : Nat
  offDtStruct : Nat
  offDtStrings : Nat
  sizeDtStrings : Nat
  sizeDtStruct : Nat

def FdtHeader.load (mem : Bytes) (dtb : Nat) : FdtHeader where
  magic := getLe mem dtb 4
  totalsize := getLe mem (dtb + 4) 4
  offDtStruct := getLe mem (dtb + 8) 4
  offDtStrings := getLe mem (dtb + 12) 4
  sizeDtStrings := getLe mem (dtb + 32) 4
  sizeDtStruct := getLe mem (dtb + 36) 4

def extractMemoryInfo (fuel : Nat) (v : View) (dtb : Nat) (header : FdtHeader) : DtbM (Option (Nat × Nat)) :=
  scan v (dtb + fdt32ToCpu header.offDtStrings) fuel { ptr := dtb + fdt32ToCpu header.offDtStruct, inMemory := false }

/-! ## `dtb_init` -/

def physicalMemoryOffset : Nat := 0xFFFFFFFF40000000

def fdtMagic : Nat := 0xd00dfeed

/-- `memory_base` and `memory_size` afterwards, from what they are before. -/
def dtbInit (fuel : Nat) (v : View) (bootDtb : Nat) (info : Nat × Nat) : DtbM (Nat × Nat) :=
  if bootDtb = 0 then .ok info
  else
    let dtb := (bootDtb + physicalMemoryOffset) % 2 ^ 64
    let header := FdtHeader.load v.mem dtb
    if fdt32ToCpu header.magic ≠ fdtMagic then .ok info
    else do
      let r ← extractMemoryInfo fuel v dtb header
      .ok (r.getD info)

end Ucore.Dtb
