import Ucore.Schedule.Sched

/-!
# `Sync.Sem` — wait queues and semaphores

`kern/sync/wait.c`, `kern/sync/sem.c`, and the waiting part of `dev_stdin.c`. A call that has to wait calls
`schedule` in its middle, and is two functions here: what it does before and what it does after.
-/

namespace Ucore

/-! ## `wait.c` -/

def waitInit (p : Nat) : KernM Unit :=
  Proc.modify fun k => k.setWait p { k.wait p with wakeupFlags := wtInterrupted }

def waitQueueAdd (q : QueueId) (p : Nat) : KernM Unit := do
  let k ← Proc.get
  Proc.check .waitAdd (p ∉ k.waitQueue q)
  Proc.put ((k.setWait p { k.wait p with waitQueue := q }).setQueue q (k.waitQueue q ++ [p]))

def waitQueueDel (q : QueueId) (p : Nat) : KernM Unit := do
  let k ← Proc.get
  Proc.check .waitDel (p ∈ k.waitQueue q ∧ (k.wait p).waitQueue = q)
  Proc.put (k.setQueue q ((k.waitQueue q).erase p))

/-- `wakeup_wait(queue, wait, wakeup_flags, 1)` -/
def wakeupWait (q : QueueId) (p wakeupFlags : Nat) : KernM Unit := do
  waitQueueDel q p
  Proc.modify fun k => k.setWait p { k.wait p with wakeupFlags := wakeupFlags }
  wakeupProc p

/-- `wakeup_queue(queue, wakeup_flags, 1)`; each round takes one process out of the queue. -/
def wakeupQueueLoop (q : QueueId) (wakeupFlags : Nat) : Nat → KernM Unit
  | 0        => Proc.stop .loops
  | fuel + 1 => do
    let k ← Proc.get
    match k.waitQueue q with
    | []     => pure ()
    | p :: _ => do
      wakeupWait q p wakeupFlags
      wakeupQueueLoop q wakeupFlags fuel

def wakeupQueue (q : QueueId) (wakeupFlags : Nat) : KernM Unit := do
  let k ← Proc.get
  wakeupQueueLoop q wakeupFlags ((k.waitQueue q).length + 1)

def waitCurrentSet (q : QueueId) (waitState : Nat) : KernM Unit := do
  let k ← Proc.get
  waitInit k.current
  Proc.modify fun k => k.modProc k.current fun x => { x with state := .sleeping, waitState := waitState }
  waitQueueAdd q k.current

def waitCurrentDel (q : QueueId) : KernM Unit := do
  let k ← Proc.get
  if k.current ∈ k.waitQueue (k.wait k.current).waitQueue then waitQueueDel q k.current else pure ()

/-! ## `sem.c` -/

def up (i : Nat) : KernM Unit := do
  let k ← Proc.get
  match k.waitQueue (.sem i) with
  | []     => Proc.put (k.setSem i (k.semValue i + 1))
  | p :: _ => do
    Proc.check .upState ((k.proc p).waitState = wtKsem)
    wakeupWait (.sem i) p wtKsem

/-- `down` up to the `schedule()` in it; `false` if it gets that far. -/
def downStart (i : Nat) : KernM Bool := do
  let k ← Proc.get
  if k.semValue i > 0 then do
    Proc.put (k.setSem i (k.semValue i - 1))
    pure true
  else do
    waitCurrentSet (.sem i) wtKsem
    pure false

/-- `down` behind its `schedule()`. -/
def downEnd (i : Nat) : KernM Unit := do
  waitCurrentDel (.sem i)
  let k ← Proc.get
  let wakeupFlags := (k.wait k.current).wakeupFlags
  let flags := if wakeupFlags ≠ wtKsem then wakeupFlags else 0
  Proc.check .downFlags (flags = 0)

def tryDown (i : Nat) : KernM Bool := do
  let k ← Proc.get
  if k.semValue i > 0 then do
    Proc.put (k.setSem i (k.semValue i - 1))
    pure true
  else pure false

/-! ## `dev_stdin.c` -/

/-- `STDIN_BUFSIZE` -/
def stdinBufsize : Nat := 4096

/-- `dev_stdin_write` of a character other than `'\0'`. -/
def devStdinWrite : KernM Unit := do
  Proc.modify fun k => if k.wpos - k.rpos < stdinBufsize then { k with wpos := k.wpos + 1 } else k
  let k ← Proc.get
  if k.waitQueue .stdin ≠ [] then wakeupQueue .stdin wtKbd else pure ()

/-- The loop of `dev_stdin_read` with `left` characters still to be read; it returns how many are left when it has
    to wait. -/
def devStdinRead : Nat → KernM (Option Nat)
  | 0        => pure none
  | left + 1 => do
    let k ← Proc.get
    if k.rpos < k.wpos then do
      Proc.put { k with rpos := k.rpos + 1 }
      devStdinRead left
    else do
      waitCurrentSet .stdin wtKbd
      pure (some (left + 1))

/-- `dev_stdin_read` behind its `schedule()`. -/
def devStdinResume (left : Nat) : KernM (Option Nat) := do
  waitCurrentDel .stdin
  let k ← Proc.get
  if (k.wait k.current).wakeupFlags = wtKbd then devStdinRead left else pure none

end Ucore
