import Ucore.Libs.Error
import Ucore.Libs.String
import Mathlib.Data.BitVec

/-!
# `Libs.Printfmt` — `libs/printfmt.c`, formatted printing

`putch` is any function that takes a character, `putdat` is the state `σ` that it works on; the descriptor is only handed
through. An `int` is a number in two's complement, so that arithmetic on it wraps around. Arguments carry the type that they
were passed with.

A call stops (`FmtStop`) when it would read outside the format string or the table of error texts, or take an argument of
another type than the one passed. Loops have `fuel`; a loop that counts an `int` down to 0 makes as many turns as the `int` says.
-/

namespace Ucore.Printfmt

inductive FmtStop where
  | loops
  | fmtRead
  | vaArg
  | errorString (err : Int)
deriving DecidableEq

abbrev FmtM := Except FmtStop

/-- An `int`. -/
def int32 (x : Int) : Int := Int.bmod x (2 ^ 32)

/-- The character constants of the source. -/
def chr (c : Char) : Int := c.toNat

variable {σ : Type}

/-! ## Numbers -/

/-- `n` times the same character -/
def putchs (putch : Int → σ → σ) (ch : Int) : Nat → σ → σ
  | 0, s     => s
  | n + 1, s => putchs putch ch n (putch ch s)

/-- `"0123456789abcdef"[mod]` -/
def digit (mod : Nat) : Int := (("0123456789abcdef".toList).getD mod '0').toNat

/-- `printnum`; `while (-- width > 0)` makes `width - 1` turns. -/
def printnum (putch : Int → σ → σ) : Nat → Nat → Nat → Int → Int → σ → FmtM σ
  | 0, _, _, _, _, _                       => .error .loops
  | fuel + 1, num, base, width, padc, s => do
    let result := num / base
    let mod := num % base
    let s ←
      if base ≤ num then printnum putch fuel result base (int32 (width - 1)) padc s
      else .ok (putchs putch padc (int32 (width - 1)).toNat s)
    .ok (putch (digit mod) s)

/-! ## Arguments -/

/-- An argument, with the type it was passed with. -/
inductive Arg where
  | int (v : BitVec 32)
  | long (v : BitVec 64)
  | longLong (v : BitVec 64)
  | str (s : Option CString)
  | ptr (p : BitVec 64)

/-- `va_arg(ap, int)` -/
def vaInt : List Arg → FmtM (BitVec 32 × List Arg)
  | .int v :: ap => .ok (v, ap)
  | _            => .error .vaArg

/-- `va_arg(ap, char *)` -/
def vaStr : List Arg → FmtM (Option CString × List Arg)
  | .str s :: ap => .ok (s, ap)
  | _            => .error .vaArg

/-- `va_arg(ap, void *)` -/
def vaPtr : List Arg → FmtM (BitVec 64 × List Arg)
  | .ptr p :: ap => .ok (p, ap)
  | _            => .error .vaArg

/-- `getuint` and `getint`, which differ in how an `int` becomes a `long long` -/
def getNum (extend : BitVec 32 → BitVec 64) (lflag : Int) : List Arg → FmtM (BitVec 64 × List Arg)
  | .longLong v :: ap => if 2 ≤ lflag then .ok (v, ap) else .error .vaArg
  | .long v :: ap     => if lflag < 2 ∧ lflag ≠ 0 then .ok (v, ap) else .error .vaArg
  | .int v :: ap      => if lflag = 0 then .ok (extend v, ap) else .error .vaArg
  | _                 => .error .vaArg

def getuint : Int → List Arg → FmtM (BitVec 64 × List Arg) := getNum (BitVec.setWidth 64)

def getint : Int → List Arg → FmtM (BitVec 64 × List Arg) := getNum (BitVec.signExtend 64)

/-! ## Flags -/

structure Flags where
  padc : Int
  width : Int
  precision : Int
  lflag : Int
  altflag : Bool

/-- At the begin of a `%`-escape sequence -/
def Flags.init : Flags := { padc := chr ' ', width := -1, precision := -1, lflag := 0, altflag := false }

/-- The label `process_precision` -/
def Flags.processPrecision (fl : Flags) (precision : Int) : Flags :=
  if fl.width < 0 then { fl with width := precision, precision := -1 } else { fl with precision := precision }

/-- The labels of `switch (ch)` -/
inductive Label where
  | minus
  | zero
  | digit
  | star
  | dot
  | hash
  | l
  | c
  | e
  | s
  | d
  | u
  | o
  | p
  | x
  | percent
  | default
deriving DecidableEq

def isDigit (ch : UInt8) : Bool := '0'.toUInt8 ≤ ch && ch ≤ '9'.toUInt8

def label (ch : UInt8) : Label :=
  if ch = '-'.toUInt8 then .minus
  else if ch = '0'.toUInt8 then .zero
  else if isDigit ch = true then .digit
  else if ch = '*'.toUInt8 then .star
  else if ch = '.'.toUInt8 then .dot
  else if ch = '#'.toUInt8 then .hash
  else if ch = 'l'.toUInt8 then .l
  else if ch = 'c'.toUInt8 then .c
  else if ch = 'e'.toUInt8 then .e
  else if ch = 's'.toUInt8 then .s
  else if ch = 'd'.toUInt8 then .d
  else if ch = 'u'.toUInt8 then .u
  else if ch = 'o'.toUInt8 then .o
  else if ch = 'p'.toUInt8 then .p
  else if ch = 'x'.toUInt8 then .x
  else if ch = '%'.toUInt8 then .percent
  else .default

/-! ## Reading the format -/

/-- `fmt[pos]` -/
def readFmt (fmt : CString) (pos : Nat) : FmtM UInt8 :=
  match fmt.read pos with
  | some ch => .ok ch
  | none    => .error .fmtRead

/-- The loop of the width field, with the value so far and the digit before `pos`. -/
def widthField (fmt : CString) : Nat → UInt8 → Int → Nat → FmtM (Int × Nat)
  | 0, _, _, _                     => .error .loops
  | fuel + 1, ch, precision, pos => do
    let precision := int32 (precision * 10 + ch.toNat - chr '0')
    let ch ← readFmt fmt pos
    if isDigit ch = false then .ok (precision, pos) else widthField fmt fuel ch precision (pos + 1)

/-- What stands at the label `reswitch` until a case does not go back to it: the character, the place behind it, the flags and
    the arguments that are left. -/
def reswitch (fmt : CString) : Nat → Nat → Flags → List Arg → FmtM (UInt8 × Nat × Flags × List Arg)
  | 0, _, _, _              => .error .loops
  | fuel + 1, pos, fl, ap => do
    let ch ← readFmt fmt pos
    let pos := pos + 1
    match label ch with
    | .minus => reswitch fmt fuel pos { fl with padc := chr '-' } ap
    | .zero  => reswitch fmt fuel pos { fl with padc := chr '0' } ap
    | .digit => do
      let (precision, pos) ← widthField fmt fuel ch 0 pos
      reswitch fmt fuel pos (fl.processPrecision precision) ap
    | .star  => do
      let (precision, ap) ← vaInt ap
      reswitch fmt fuel pos (fl.processPrecision precision.toInt) ap
    | .dot   => reswitch fmt fuel pos (if fl.width < 0 then { fl with width := 0 } else fl) ap
    | .hash  => reswitch fmt fuel pos { fl with altflag := true } ap
    | .l     => reswitch fmt fuel pos { fl with lflag := int32 (fl.lflag + 1) } ap
    | _      => .ok (ch, pos, fl, ap)

/-- `for (; fmt[-1] != '%'; fmt --)` -/
def stepBack (fmt : CString) : Nat → Nat → FmtM Nat
  | 0, _               => .error .loops
  | _ + 1, 0           => .error .fmtRead
  | fuel + 1, pos + 1 => do
    let ch ← readFmt fmt pos
    if ch ≠ '%'.toUInt8 then stepBack fmt fuel pos else .ok (pos + 1)

/-! ## Strings -/

/-- `strnlen(p, precision)`, where the `int` becomes a `size_t` -/
def strnlenPrec (p : CString) (precision : Int) : Nat := min p.chars.length (precision % 2 ^ 64).toNat

/-- The padding in front of a string, and the width that is left. -/
def putsLeft (putch : Int → σ → σ) (fl : Flags) (p : CString) (s : σ) : Int × σ :=
  if 0 < fl.width ∧ fl.padc ≠ chr '-' then
    let width := int32 (fl.width - strnlenPrec p fl.precision)
    (min width 0, putchs putch fl.padc width.toNat s)
  else (fl.width, s)

/-- The loop over the characters of a string: the width that is left. -/
def putsChars (putch : Int → σ → σ) (altflag : Bool) : List UInt8 → Int → Int → σ → Int × σ
  | [], _, width, s                => (width, s)
  | ch :: p, precision, width, s =>
    let precision' := if precision < 0 then precision else precision - 1
    if precision < 0 ∨ 0 ≤ precision' then
      let shown := if altflag = true ∧ ((ch.toNat : Int) < chr ' ' ∨ chr '~' < (ch.toNat : Int)) then chr '?' else ch.toNat
      putsChars putch altflag p precision' (int32 (width - 1)) (putch shown s)
    else (width, s)

/-- `case 's'` -/
def puts (putch : Int → σ → σ) (fl : Flags) (p : Option CString) (s : σ) : σ :=
  let p := p.getD (CString.lit "(null)")
  let (width, s) := putsLeft putch fl p s
  let (width, s) := putsChars putch fl.altflag p.chars fl.precision width s
  putchs putch (chr ' ') width.toNat s

/-! ## Error texts -/

/-- The initialisers of `error_string`; the other entries are `NULL`. -/
def errorStrings : List (Int × String) :=
  [(eUnspecified, "unspecified error"), (eBadProc, "bad process"), (eInval, "invalid parameter"),
   (eNoMem, "out of memory"), (eNoFreeProc, "out of processes"), (eFault, "segmentation fault"),
   (eInvalElf, "invalid elf file"), (eKilled, "process is killed"), (ePanic, "panic failure"),
   (eNoDev, "no such device"), (eNaDev, "device not available"), (eBusy, "device/file is busy"),
   (eNoEnt, "no such file or directory"), (eIsDir, "is a directory"), (eNotDir, "not a directory"),
   (eXdev, "cross device link"), (eUnimp, "unimplemented feature"), (eSeek, "illegal seek"),
   (eMaxOpen, "too many files are open"), (eExists, "file or directory already exists"),
   (eNotEmpty, "directory is not empty")]

/-- `error_string[err]`; the table has the entries 0 to `MAXERROR`. -/
def errorString (err : Int) : FmtM (Option CString) :=
  if 0 ≤ err ∧ err ≤ maxError then .ok ((errorStrings.lookup err).map CString.lit) else .error (.errorString err)

/-- The text of an error number, if it has one. -/
def errText (err : Int) : FmtM (Option CString) := if maxError < err then .ok none else errorString err

/-! ## `vprintfmt` -/

/-- The format that `case 'e'` hands to `printfmt`, and its argument. -/
def errFormat (err : Int) : Option CString → CString × List Arg
  | none   => (CString.lit "error %d", [.int (BitVec.ofInt 32 err)])
  | some p => (CString.lit "%s", [.str (some p)])

def vprintfmt (putch : Int → σ → σ) : Nat → CString → Nat → List Arg → σ → FmtM σ
  | 0, _, _, _, _               => .error .loops
  | fuel + 1, fmt, pos, ap, s => do
    let ch ← readFmt fmt pos
    if ch ≠ '%'.toUInt8 then
      if ch = 0 then .ok s else vprintfmt putch fuel fmt (pos + 1) ap (putch ch.toNat s)
    else do
      let (ch, pos, fl, ap) ← reswitch fmt fuel (pos + 1) Flags.init ap
      match label ch with
      | .c => do
        let (v, ap) ← vaInt ap
        vprintfmt putch fuel fmt pos ap (putch v.toInt s)
      | .e => do
        let (v, ap) ← vaInt ap
        let err := if v.toInt < 0 then int32 (-v.toInt) else v.toInt
        let p ← errText err
        let (efmt, eap) := errFormat err p
        let s ← vprintfmt putch fuel efmt 0 eap s
        vprintfmt putch fuel fmt pos ap s
      | .s => do
        let (p, ap) ← vaStr ap
        vprintfmt putch fuel fmt pos ap (puts putch fl p s)
      | .d => do
        let (num, ap) ← getint fl.lflag ap
        let (num, s) := if num.toInt < 0 then (-num, putch (chr '-') s) else (num, s)
        let s ← printnum putch fuel num.toNat 10 fl.width fl.padc s
        vprintfmt putch fuel fmt pos ap s
      | .u => do
        let (num, ap) ← getuint fl.lflag ap
        let s ← printnum putch fuel num.toNat 10 fl.width fl.padc s
        vprintfmt putch fuel fmt pos ap s
      | .o => do
        let (num, ap) ← getuint fl.lflag ap
        let s ← printnum putch fuel num.toNat 8 fl.width fl.padc s
        vprintfmt putch fuel fmt pos ap s
      | .p => do
        let (num, ap) ← vaPtr ap
        let s ← printnum putch fuel num.toNat 16 fl.width fl.padc (putch (chr 'x') (putch (chr '0') s))
        vprintfmt putch fuel fmt pos ap s
      | .x => do
        let (num, ap) ← getuint fl.lflag ap
        let s ← printnum putch fuel num.toNat 16 fl.width fl.padc s
        vprintfmt putch fuel fmt pos ap s
      | .percent => vprintfmt putch fuel fmt pos ap (putch ch.toNat s)
      | _ => do
        let pos ← stepBack fmt fuel (pos - 1)
        vprintfmt putch fuel fmt pos ap (putch (chr '%') s)

/-! ## `vsnprintf` -/

/-- `struct sprintbuf`, and the memory it points into. -/
structure Sprintbuf where
  buf : Nat
  ebuf : Nat
  cnt : Int
  mem : Bytes

def sprintputch (ch : Int) (b : Sprintbuf) : Sprintbuf :=
  let b := { b with cnt := int32 (b.cnt + 1) }
  if b.buf < b.ebuf then { b with mem := Function.update b.mem b.buf (UInt8.ofInt ch), buf := b.buf + 1 } else b

/-- The return value, and the memory afterwards. -/
def vsnprintf (fuel : Nat) (str size : Nat) (fmt : CString) (ap : List Arg) (mem : Bytes) : FmtM (Int × Bytes) :=
  let b : Sprintbuf := { buf := str, ebuf := (str + size + 2 ^ 64 - 1) % 2 ^ 64, cnt := 0, mem := mem }
  if str = 0 ∨ b.ebuf < b.buf then .ok (-eInval, mem)
  else do
    let b ← vprintfmt sprintputch fuel fmt 0 ap b
    .ok (b.cnt, Function.update b.mem b.buf 0)

end Ucore.Printfmt
