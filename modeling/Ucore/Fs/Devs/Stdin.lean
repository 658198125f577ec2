import Ucore.Lib.Bytes
import Ucore.Process.System

/-!
# `Fs.Devs.Stdin` — `kern/fs/devs/dev_stdin.c` with its buffer

`Sync.Sem` has the part of this device that matters for who sleeps and who is woken. Here are the characters too. The
functions are those of the file again, with `stdin_buffer`; a call that has to wait is two functions. `buf p` is what the call
of `dev_stdin_read` by the process `p` has stored so far, and the number of these characters is its `ret`.

The history: `accepted` are the characters for which `p_wpos` has moved, `delivered` those that have been stored, and by
whom, the last one at the end.
-/

namespace Ucore.Stdin

structure Dev where
  k : Kern
  stdinBuffer : Bytes
  buf : Nat → List UInt8
  accepted : List UInt8
  delivered : List (Nat × UInt8)

abbrev DevM (α : Type) := Proc KernPanic Int Dev α

/-- Run a function of the kernel. -/
def inKern {α : Type} (x : KernM α) : DevM α := Proc.within Dev.k (fun k d => { d with k := k }) id x

/-- `stdin_buffer[p_wpos % STDIN_BUFSIZE] = c` -/
def Dev.setChar (d : Dev) (c : UInt8) : Dev :=
  { d with stdinBuffer := Function.update d.stdinBuffer (d.k.wpos % stdinBufsize) c }

/-- `p_wpos ++` -/
def Dev.advance (d : Dev) (c : UInt8) : Dev :=
  { d with k := { d.k with wpos := d.k.wpos + 1 }, accepted := d.accepted ++ [c] }

/-- `*buf ++ = c`, and `ret ++, p_rpos ++` -/
def Dev.store (d : Dev) (c : UInt8) : Dev where
  k := { d.k with rpos := d.k.rpos + 1 }
  stdinBuffer := d.stdinBuffer
  buf := Function.update d.buf d.k.current (d.buf d.k.current ++ [c])
  accepted := d.accepted
  delivered := d.delivered ++ [(d.k.current, c)]

/-- `ret = 0` -/
def Dev.clear (d : Dev) : Dev := { d with buf := Function.update d.buf d.k.current [] }

def devStdinWrite (c : UInt8) : DevM Unit :=
  if c ≠ 0 then do
    Proc.modify fun d => d.setChar c
    Proc.modify fun d => if d.k.wpos - d.k.rpos < stdinBufsize then d.advance c else d
    let d ← Proc.get
    if d.k.waitQueue .stdin ≠ [] then inKern (wakeupQueue .stdin wtKbd) else pure ()
  else pure ()

/-- The loop of `dev_stdin_read` for `left` more characters. It returns how many are left when it has to wait. -/
def readLoop : Nat → DevM (Option Nat)
  | 0        => pure none
  | left + 1 => do
    let d ← Proc.get
    if d.k.rpos < d.k.wpos then do
      Proc.modify fun d => d.store (d.stdinBuffer (d.k.rpos % stdinBufsize))
      readLoop left
    else do
      inKern (waitCurrentSet .stdin wtKbd)
      pure (some (left + 1))

def devStdinRead (len : Nat) : DevM (Option Nat) := do
  Proc.modify Dev.clear
  readLoop len

/-- `dev_stdin_read` behind its `schedule()`. -/
def devStdinResume (left : Nat) : DevM (Option Nat) := do
  inKern (waitCurrentDel .stdin)
  let d ← Proc.get
  if (d.k.wait d.k.current).wakeupFlags = wtKbd then readLoop left else pure none

/-! ## The system -/

/-- The system of processes, with the device. -/
structure Console where
  dev : Dev
  pc : Nat → Pc
  events : List Event

/-- Without the characters. -/
def Console.sys (s : Console) : Sys := { k := s.dev.k, pc := s.pc, events := s.events }

/-- The running process has got to `pc`. -/
def Console.move (s : Console) (dev : Dev) (e : Event) (pc : Pc) : Console where
  dev := dev
  pc := (s.sys.move dev.k e pc).pc
  events := (s.sys.move dev.k e pc).events

/-- A step that leaves the device alone. -/
def Console.setSys (s : Console) (sys : Sys) : Console :=
  { dev := { s.dev with k := sys.k }, pc := sys.pc, events := sys.events }

/-- Where a read stops. -/
def readPc : Option Nat → Pc
  | none      => .run
  | some left => .pre (.read left)

inductive Label where
  | other (l : Ucore.Label)
  | read (len : Nat)
  | resume
  | key (c : UInt8)

/-- The label is not one of the steps of this device. -/
def Other (s : Sys) : Ucore.Label → Prop
  | .call (.read _) => False
  | .key            => False
  | .resume         => ∀ left, s.pc s.k.current ≠ .post (.read left)
  | _               => True

/-- A step of the system, where those of this device are made with the characters. -/
inductive Step : Console → Label → Console → Prop where
  | other {s : Console} {l : Ucore.Label} {sys : Sys} (hother : Other s.sys l) (h : Ucore.Step s.sys l sys) :
      Step s (.other l) (s.setSys sys)
  | read {s : Console} {len : Nat} {r : Option Nat} {dev : Dev} (hpc : s.pc s.dev.k.current = .run)
      (hok : (Call.read len).Ok s.dev.k) (h : devStdinRead len s.dev = .ok r dev) :
      Step s (.read len) (s.move dev .other (readPc r))
  | resume {s : Console} {left : Nat} {r : Option Nat} {dev : Dev} (hpc : s.pc s.dev.k.current = .post (.read left))
      (h : devStdinResume left s.dev = .ok r dev) : Step s .resume (s.move dev .other (readPc r))
  | key {s : Console} {c : UInt8} {dev : Dev} (hc : c ≠ 0) (h : devStdinWrite c s.dev = .ok () dev) :
      Step s (.key c) (s.move dev .other (s.pc s.dev.k.current))
  | nul {s : Console} {dev : Dev} (h : devStdinWrite 0 s.dev = .ok () dev) : Step s (.key 0) { s with dev := dev }

/-- The system has started, and `stdin_device_init` is through. -/
def Start (s : Console) : Prop :=
  SysInit s.sys ∧ s.dev.buf = (fun _ => []) ∧ s.dev.accepted = [] ∧ s.dev.delivered = []

end Ucore.Stdin
