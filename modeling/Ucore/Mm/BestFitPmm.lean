import Ucore.Mm.DefaultPmm

/-!
# `Mm.BestFitPmm` — `kern/mm/best_fit_pmm.c` of lab2, the best-fit page allocator

`best_fit_init` and `best_fit_free_pages` have the bodies of `default_init` and `default_free_pages`, with the insertion loop
that does not leave at the end of the list. `best_fit_init_memmap` does leave it there, and the search of
`best_fit_alloc_pages` goes through the whole list.
-/

namespace Ucore

def bestFitInit (s : Pmm) : Pmm := defaultInit s

/-- The insertion loop of `best_fit_init_memmap`. -/
def insertLoopBreak (base : Nat) : Nat → Link → PmmM Unit
  | 0, _         => Proc.stop .loops
  | fuel + 1, le => do
    let s ← Proc.get
    let le := listNext s.link le
    if le = .freeList then pure ()
    else if base < le2page le then
      Proc.modify fun s => s.setLink (listAddBefore · le (.page base))
    else if listNext s.link le = .freeList then
      Proc.modify fun s => s.setLink (listAdd · le (.page base))
    else insertLoopBreak base fuel le

/-- The second half of `best_fit_init_memmap`. -/
def linkBlockBreak (base n : Nat) : PmmM Unit := do
  Proc.modify fun s => ((s.setProperty base n).setPageProperty base).addNrFree n
  let s ← Proc.get
  if listEmpty s.link .freeList then
    Proc.modify fun s => s.setLink (listAdd · .freeList (.page base))
  else insertLoopBreak base s.fuel .freeList

def bestFitInitMemmap (base n : Nat) : PmmM Unit := do
  Proc.check .zeroPages (0 < n)
  memmapPages base n
  linkBlockBreak base n

/-- The search loop: `page` is the best block so far, of `min_size` pages. -/
def bestLoop (n : Nat) : Nat → Link → Option Nat → Nat → PmmM (Option Nat)
  | 0, _, _, _               => Proc.stop .loops
  | fuel + 1, le, page, minSize => do
    let s ← Proc.get
    let le := listNext s.link le
    if le = .freeList then pure page
    else
      let p := le2page le
      if n ≤ (s.pages p).property ∧ (s.pages p).property < minSize then bestLoop n fuel le (some p) (s.pages p).property
      else bestLoop n fuel le page minSize

/-- `nr_free + 1` is an `unsigned int`. -/
def bestFitAllocPages (n : Nat) : PmmM (Option Nat) := do
  Proc.check .zeroPages (0 < n)
  let s ← Proc.get
  if s.nrFree < n then pure none
  else
    match ← bestLoop n s.fuel .freeList none ((s.nrFree + 1) % 2 ^ 32) with
    | none => pure none
    | some page => do
      takeBlock n page
      pure (some page)

def bestFitFreePages (base n : Nat) : PmmM Unit := do
  Proc.check .zeroPages (0 < n)
  freePagesLoop base n
  linkBlock base n
  let base ← mergePrev base
  mergeNext base

end Ucore
