import Ucore.Libs.String

/-!
# `User.Sh` — `gettoken` of `user/sh.c`

The command is an array of characters that ends with a NUL, and pointers are places in it. A call that would read or write
outside the array stops.
-/

namespace Ucore.Sh

inductive ShStop where
  | outside
  | loops
deriving DecidableEq

abbrev ShM := Except ShStop

/-- `*s` -/
def readAt (mem : List UInt8) (s : Nat) : ShM UInt8 :=
  match mem[s]? with
  | some ch => .ok ch
  | none    => .error .outside

/-- `*s = ch` -/
def writeAt (mem : List UInt8) (s : Nat) (ch : UInt8) : ShM (List UInt8) :=
  if s < mem.length then .ok (mem.set s ch) else .error .outside

/-- `WHITESPACE` -/
def whitespace : List UInt8 := (CString.lit " \t\r\n").chars

/-- `SYMBOLS` -/
def symbols : List UInt8 := (CString.lit "<|>&;").chars

/-- `while (strchr(WHITESPACE, *s) != NULL)` -/
def skipWhite : Nat → List UInt8 → Nat → ShM (List UInt8 × Nat)
  | 0, _, _           => .error .loops
  | fuel + 1, mem, s => do
    let ch ← readAt mem s
    if strchr whitespace ch ≠ none then do
      let mem ← writeAt mem s 0
      skipWhite fuel mem (s + 1)
    else .ok (mem, s)

/-- The loop over the characters of a word, with `flag` for a place between quotes. -/
def scanWord : Nat → List UInt8 → Nat → Bool → ShM (List UInt8 × Nat)
  | 0, _, _, _              => .error .loops
  | fuel + 1, mem, s, flag => do
    let ch ← readAt mem s
    if ch ≠ 0 ∧ (flag = true ∨ strchr (whitespace ++ symbols) ch = none) then
      if ch = '"'.toUInt8 then do
        let mem ← writeAt mem s ' '.toUInt8
        scanWord fuel mem (s + 1) (!flag)
      else scanWord fuel mem (s + 1) flag
    else .ok (mem, s)

/-- What a call returns and stores: the token, `*p1`, `*p2` if it is stored to, and the array. -/
structure Got where
  token : UInt8
  p1 : Option Nat
  p2 : Option Nat
  mem : List UInt8

def gettoken (fuel : Nat) (mem : List UInt8) (p1 : Option Nat) : ShM Got :=
  match p1 with
  | none   => .ok { token := 0, p1 := none, p2 := none, mem := mem }
  | some s => do
    let (mem, s) ← skipWhite fuel mem s
    let ch ← readAt mem s
    if ch = 0 then .ok { token := 0, p1 := p1, p2 := none, mem := mem }
    else do
      let p2 := s
      let (token, mem, s) ←
        if strchr symbols ch ≠ none then do
          let mem ← writeAt mem s 0
          .ok (ch, mem, s + 1)
        else do
          let (mem, s) ← scanWord fuel mem s false
          .ok ('w'.toUInt8, mem, s)
      let last ← readAt mem s
      .ok { token := token, p1 := if last ≠ 0 then some s else none, p2 := some p2, mem := mem }

/-- The call number `k` of calls that follow one another -/
def calls (fuel : Nat) : Nat → List UInt8 → Option Nat → ShM Got
  | 0, mem, p1     => gettoken fuel mem p1
  | k + 1, mem, p1 => do
    let r ← gettoken fuel mem p1
    calls fuel k r.mem r.p1

end Ucore.Sh
