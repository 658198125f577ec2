import Ucore.Process.Correctness.Tree

/-!
# `Process.Correctness.Fork` — `do_fork`

A new process becomes the youngest child of the running one, gets a pid of its own, and can run.
-/

namespace Ucore

variable {k k' : Kern} {b : Nat → Option Blocked} {p q c : Nat} {v : PidVars}

/-! ## Fields of a process -/

namespace Kern

/-- A field that the change leaves alone. -/
theorem modProc_field {α : Type} (g : ProcStruct → α) {f : ProcStruct → ProcStruct} (hg : ∀ x, g (f x) = g x)
    (k : Kern) (p c : Nat) : g ((k.modProc p f).proc c) = g (k.proc c) := by
  by_cases hc : c = p
  · rw [hc, modProc_self]
    exact hg _
  · rw [modProc_other k f hc]

/-- A field that the change sets. -/
theorem modProc_set {α : Type} (g : ProcStruct → α) {f : ProcStruct → ProcStruct} {a : α} (hg : ∀ x, g (f x) = a)
    (k : Kern) (p c : Nat) : g ((k.modProc p f).proc c) = if c = p then a else g (k.proc c) := by
  by_cases hc : c = p
  · rw [if_pos hc, hc, modProc_self]
    exact hg _
  · rw [if_neg hc, modProc_other k f hc]

theorem modSome_field {α : Type} (g : ProcStruct → α) {f : ProcStruct → ProcStruct} (hg : ∀ x, g (f x) = g x)
    (k : Kern) (o : Option Nat) (c : Nat) : g ((k.modSome o f).proc c) = g (k.proc c) := by
  cases o with
  | none => rfl
  | some p => exact modProc_field g hg k p c

theorem modSome_set {α : Type} (g : ProcStruct → α) {f : ProcStruct → ProcStruct} {a : α} (hg : ∀ x, g (f x) = a)
    (k : Kern) (o : Option Nat) (c : Nat) : g ((k.modSome o f).proc c) = if o = some c then a else g (k.proc c) := by
  cases o with
  | none => exact (if_neg fun heq => nomatch heq).symm
  | some p =>
    refine (modProc_set g hg k p c).trans ?_
    simp only [Option.some.injEq, eq_comm]

theorem modSome_eq (k : Kern) (o : Option Nat) (f : ProcStruct → ProcStruct) :
    k.modSome o f = { k with proc := (k.modSome o f).proc } := by
  cases o <;> rfl

theorem modSome_nrProcess (k : Kern) (o : Option Nat) (f : ProcStruct → ProcStruct) :
    (k.modSome o f).nrProcess = k.nrProcess := by
  cases o <;> rfl

theorem modSome_live (k : Kern) (o : Option Nat) (f : ProcStruct → ProcStruct) : (k.modSome o f).live = k.live := by
  cases o <;> rfl

/-- The first three steps of `set_links`, with the parent at `q`. -/
def firstChild (k : Kern) (p q : Nat) : Kern := ({ k with procList := p :: k.procList } : Kern).modProc p fun x =>
  { x with yptr := none, optr := (k.proc q).cptr }

def secondChild (k : Kern) (p q : Nat) : Kern := (k.firstChild p q).modSome (k.proc q).cptr fun x => { x with yptr := some p }

def newChild (k : Kern) (p q : Nat) : Kern := (k.secondChild p q).modProc q fun x => { x with cptr := some p }

/-- `set_links` -/
def linked (k : Kern) (p q : Nat) : Kern := { k.newChild p q with nrProcess := k.nrProcess + 1 }

theorem linked_field {α : Type} (g : ProcStruct → α) (hg : ∀ x (cp yp op : Option Nat),
    g { x with cptr := cp, yptr := yp, optr := op } = g x) (k : Kern) (p q c : Nat) :
    g ((k.linked p q).proc c) = g (k.proc c) := by
  have h3 : g ((k.newChild p q).proc c) = g ((k.secondChild p q).proc c) :=
    modProc_field g (fun x => hg x (some p) x.yptr x.optr) _ q c
  have h2 : g ((k.secondChild p q).proc c) = g ((k.firstChild p q).proc c) :=
    modSome_field g (fun x => hg x x.cptr (some p) x.optr) _ _ c
  have h1 : g ((k.firstChild p q).proc c) = g (k.proc c) :=
    modProc_field g (fun x => hg x x.cptr none (k.proc q).cptr) { k with procList := p :: k.procList } p c
  exact h3.trans (h2.trans h1)

theorem linked_cptr (k : Kern) (p q c : Nat) :
    ((k.linked p q).proc c).cptr = if c = q then some p else (k.proc c).cptr := by
  have h3 : ((k.newChild p q).proc c).cptr = if c = q then some p else ((k.secondChild p q).proc c).cptr :=
    modProc_set ProcStruct.cptr (by exact fun _ => rfl) _ q c
  have h2 : ((k.secondChild p q).proc c).cptr = ((k.firstChild p q).proc c).cptr :=
    modSome_field ProcStruct.cptr (by exact fun _ => rfl) _ _ c
  have h1 : ((k.firstChild p q).proc c).cptr = (k.proc c).cptr :=
    modProc_field ProcStruct.cptr (by exact fun _ => rfl) { k with procList := p :: k.procList } p c
  exact h3.trans (by rw [h2, h1])

theorem linked_optr (k : Kern) (p q c : Nat) :
    ((k.linked p q).proc c).optr = if c = p then (k.proc q).cptr else (k.proc c).optr := by
  have h3 : ((k.newChild p q).proc c).optr = ((k.secondChild p q).proc c).optr :=
    modProc_field ProcStruct.optr (by exact fun _ => rfl) _ q c
  have h2 : ((k.secondChild p q).proc c).optr = ((k.firstChild p q).proc c).optr :=
    modSome_field ProcStruct.optr (by exact fun _ => rfl) _ _ c
  have h1 : ((k.firstChild p q).proc c).optr = if c = p then (k.proc q).cptr else (k.proc c).optr :=
    modProc_set ProcStruct.optr (by exact fun _ => rfl) { k with procList := p :: k.procList } p c
  exact h3.trans (h2.trans h1)

theorem linked_yptr (k : Kern) (p q c : Nat) : ((k.linked p q).proc c).yptr =
    if (k.proc q).cptr = some c then some p else if c = p then none else (k.proc c).yptr := by
  have h3 : ((k.newChild p q).proc c).yptr = ((k.secondChild p q).proc c).yptr :=
    modProc_field ProcStruct.yptr (by exact fun _ => rfl) _ q c
  have h2 : ((k.secondChild p q).proc c).yptr =
      if (k.proc q).cptr = some c then some p else ((k.firstChild p q).proc c).yptr :=
    modSome_set ProcStruct.yptr (by exact fun _ => rfl) _ _ c
  have h1 : ((k.firstChild p q).proc c).yptr = if c = p then none else (k.proc c).yptr :=
    modProc_set ProcStruct.yptr (by exact fun _ => rfl) { k with procList := p :: k.procList } p c
  exact h3.trans (by rw [h2, h1])

theorem linked_eq (k : Kern) (p q : Nat) : k.linked p q = { k with
    proc := (k.linked p q).proc
    procList := p :: k.procList
    nrProcess := k.nrProcess + 1 } := by
  rw [linked, newChild, secondChild]
  exact congrArg (fun k1 : Kern => ({ (k1.modProc q fun x => { x with cptr := some p }) with
    nrProcess := k.nrProcess + 1 } : Kern)) (modSome_eq _ _ _)

end Kern

theorem setLinks_run (h : (k.proc p).parent = some q) : setLinks p k = .ok () (k.linked p q) := by
  have hoptr : ((k.firstChild p q).proc p).optr = (k.proc q).cptr :=
    (Kern.modProc_set ProcStruct.optr (by exact fun _ => rfl) { k with procList := p :: k.procList } p p).trans (if_pos rfl)
  have hnr : (k.newChild p q).nrProcess = k.nrProcess := Kern.modSome_nrProcess (k.firstChild p q) _ _
  rw [setLinks, Proc.get_bind, h]
  dsimp only
  rw [Proc.modify_bind]
  refine (Proc.bind_ok (?_ : Proc.modify _ _ = .ok () (k.firstChild p q))).trans ?_
  · rfl
  refine (Proc.bind_ok (?_ : Proc.modify _ _ = .ok () (k.secondChild p q))).trans ?_
  · rw [Kern.secondChild, ← hoptr]
    rfl
  rw [Kern.linked, ← hnr]
  rfl

/-! ## A new process and those who wait -/

/-- `p` is new, and cannot run yet. -/
structure Joined (k k' : Kern) (p : Nat) : Prop where
  state : ∀ c, c ≠ p → (k'.proc c).state = (k.proc c).state
  waitState : ∀ c, c ≠ p → (k'.proc c).waitState = (k.proc c).waitState
  queued : ∀ c, c ≠ p → (k'.proc c).queued = (k.proc c).queued
  newState : (k'.proc p).state = .uninit
  live : k'.live = insert p k.live
  current : k'.current = k.current
  idleproc : k'.idleproc = k.idleproc
  initproc : k'.initproc = k.initproc
  runList : k'.runList = k.runList
  procNum : k'.procNum = k.procNum
  timerList : k'.timerList = k.timerList
  semValue : k'.semValue = k.semValue
  waitQueue : k'.waitQueue = k.waitQueue
  wait : k'.wait = k.wait

theorem RunInv.join (h : RunInv k) (hj : Joined k k' p) (hp : p ∉ k.live) : RunInv k' := by
  have hnot : p ∉ k.runList := fun hmem => hp ((h.mem p).mp hmem).1
  refine ⟨?_, ?_, ?_, fun c => ?_, fun c hmem => ?_, ?_⟩
  · rw [hj.idleproc, hj.live]
    exact Finset.mem_insert_of_mem h.idle
  · rw [hj.current, hj.live]
    exact Finset.mem_insert_of_mem h.current
  · rw [hj.runList]
    exact h.nodup
  · rw [hj.runList, hj.live, hj.current, hj.idleproc, Finset.mem_insert]
    by_cases hc : c = p
    · rw [hc, hj.newState]
      exact ⟨fun hmem => absurd hmem hnot, fun hand => ProcState.noConfusion hand.2.1⟩
    · rw [hj.state c hc, h.mem c]
      exact ⟨fun hand => ⟨.inr hand.1, hand.2⟩, fun hand => ⟨hand.1.resolve_left hc, hand.2⟩⟩
  · rw [hj.runList] at hmem
    rw [hj.queued c fun heq => hnot (heq ▸ hmem)]
    exact h.queued c hmem
  · rw [hj.procNum, hj.runList]
    exact h.num

/-- **The new process can run**, and waits for nothing. -/
theorem KernInv.join (h : KernInv k b) (hj : Joined k k' p) (hp : p ∉ k.live) :
    KernInv (k'.woke p) (Function.update b p none) := by
  have hrest := Kern.Rescheduled.woke k' p
  have hne : ∀ c, c ∈ k.live → c ≠ p := fun c hc heq => hp (heq ▸ hc)
  have hlive : p ∈ k'.live := hj.live ▸ Finset.mem_insert_self p _
  have hqueue : QueueInv k' (Function.update b p none) := by
    refine ⟨?_, fun q c hmem => ?_, fun t hmem => ?_, ?_, ?_, ?_⟩
    · rw [hj.waitQueue]
      exact h.queue.nodup
    · rw [hj.waitQueue] at hmem
      obtain ⟨hc, hof, hwait⟩ := h.queue.mem q c hmem
      rw [hj.live, hj.wait, Function.update_of_ne (hne c hc)]
      exact ⟨Finset.mem_insert_of_mem hc, hof, hwait⟩
    · rw [hj.timerList] at hmem
      obtain ⟨hc, hlink, hsleep⟩ := h.queue.timer t hmem
      rw [hj.live, Function.update_of_ne (hne _ hc)]
      exact ⟨Finset.mem_insert_of_mem hc, hlink, hsleep⟩
    · rw [hj.timerList]
      exact h.queue.links
    · rw [hj.semValue]
      exact h.queue.value
    · rw [hj.semValue, hj.waitQueue]
      exact h.queue.empty
  refine ⟨(h.run.join hj hp).woke hlive, queue_woke hqueue p, fun c hc => ?_, ?_, ?_⟩
  · by_cases hcp : c = p
    · rw [hcp, Function.update_self]
      refine ⟨Kern.woke_state, ?_⟩
      rcases Kern.woke_waitState (k := k') (p := p) with hzero | ⟨hr, -⟩
      · exact hzero
      · exact ProcState.noConfusion (hj.newState.symm.trans hr)
    · rw [Function.update_of_ne hcp]
      rw [hrest.live, hj.live] at hc
      refine waits_woke ?_ hcp
      refine (h.waits c ((Finset.mem_insert.mp hc).resolve_left hcp)).congr (hj.state c hcp) (hj.waitState c hcp)
        (by rw [hj.wait]) fun i => ?_
      rw [hj.waitQueue]
  · rw [hrest.idleproc, hj.idleproc, Function.update_of_ne (hne _ h.run.idle)]
    exact h.idle
  · rw [hrest.initproc, hrest.live, hj.initproc, hj.live, Function.update_of_ne (hne _ h.init.1)]
    exact ⟨Finset.mem_insert_of_mem h.init.1, h.init.2⟩

/-! ## `do_fork` -/

namespace Kern

/-- The new process when its parent is set. -/
def born (k : Kern) (p : Nat) : Kern :=
  ({ k.setProc p .fresh with live := insert p k.live } : Kern).modProc p fun x => { x with parent := some k.current }

def withPids (k : Kern) (v : PidVars) : Kern := { k with nextSafe := v.nextSafe, lastPid := v.lastPid }

def withPid (k : Kern) (p : Nat) (pid : Int) : Kern := k.modProc p fun x => { x with pid := pid }

def hashed (k : Kern) (p : Nat) : Kern :=
  { k with hashList := Function.update k.hashList (pidHashfn (k.proc p).pid) (p :: k.hashList (pidHashfn (k.proc p).pid)) }

/-- The new process before it is woken. -/
def forked (k : Kern) (p : Nat) (v : PidVars) : Kern :=
  ((((k.born p).withPids v).withPid p v.lastPid).hashed p).linked p k.current

theorem born_self (k : Kern) (p : Nat) : (k.born p).proc p = { ProcStruct.fresh with parent := some k.current } := by
  refine (modProc_self _ p _).trans ?_
  show ({ Function.update k.proc p ProcStruct.fresh p with parent := some k.current } : ProcStruct) = _
  rw [Function.update_self]

theorem born_other (k : Kern) (h : c ≠ p) : (k.born p).proc c = k.proc c :=
  (modProc_other _ _ h).trans (Function.update_of_ne h _ _)

end Kern

/-- The state in which `set_links` starts. -/
abbrev Kern.unlinked (k : Kern) (p : Nat) (v : PidVars) : Kern := (((k.born p).withPids v).withPid p v.lastPid).hashed p

theorem unlinked_self (k : Kern) (p : Nat) (v : PidVars) : (k.unlinked p v).proc p =
    { ProcStruct.fresh with parent := some k.current, pid := v.lastPid } := by
  have hpid : (((k.born p).withPids v).withPid p v.lastPid).proc p = { (k.born p).proc p with pid := v.lastPid } :=
    Function.update_self p _ _
  rw [Kern.born_self] at hpid
  exact hpid

theorem unlinked_other (k : Kern) (v : PidVars) (h : c ≠ p) : (k.unlinked p v).proc c = k.proc c :=
  Eq.trans (b := (k.born p).proc c) (Function.update_of_ne h _ _) (Kern.born_other k h)

theorem unlinked_hash (k : Kern) (p : Nat) (v : PidVars) : (k.unlinked p v).hashList =
    Function.update k.hashList (pidHashfn v.lastPid) (p :: k.hashList (pidHashfn v.lastPid)) := by
  have hpid : (((k.born p).withPids v).withPid p v.lastPid |>.proc p).pid = v.lastPid :=
    congrArg ProcStruct.pid (Kern.modProc_self ((k.born p).withPids v) p _)
  show Function.update k.hashList (pidHashfn (((k.born p).withPids v).withPid p v.lastPid |>.proc p).pid)
    (p :: k.hashList (pidHashfn (((k.born p).withPids v).withPid p v.lastPid |>.proc p).pid)) = _
  rw [hpid]

theorem joined_forked (k : Kern) (p : Nat) (v : PidVars) : Joined k (k.forked p v) p := by
  have hrest := Kern.linked_eq (k.unlinked p v) p k.current
  have hfield : ∀ {α : Type} (g : ProcStruct → α), (∀ x (cp yp op : Option Nat),
      g { x with cptr := cp, yptr := yp, optr := op } = g x) → ∀ c, c ≠ p →
      g ((k.forked p v).proc c) = g (k.proc c) := fun g hg c hc =>
    (Kern.linked_field g hg _ p k.current c).trans (by rw [unlinked_other k v hc])
  refine ⟨hfield _ fun _ _ _ _ => rfl, hfield _ fun _ _ _ _ => rfl, hfield _ fun _ _ _ _ => rfl, ?_, ?_, ?_, ?_, ?_, ?_, ?_, ?_,
    ?_, ?_, ?_⟩
  · refine (Kern.linked_field ProcStruct.state (fun _ _ _ _ => rfl) _ p k.current p).trans ?_
    rw [unlinked_self]
    rfl
  all_goals
    rw [Kern.forked, hrest]
    rfl

theorem forked_forked (v : PidVars) (hp : p ∉ k.live) (hcur : k.current ∈ k.live)
    (hhead : (k.proc k.current).cptr ≠ some p) : Forked k (k.forked p v) p k.current v := by
  have hrest := Kern.linked_eq (k.unlinked p v) p k.current
  have hne : k.current ≠ p := fun heq => hp (heq ▸ hcur)
  have hfield : ∀ {α : Type} (g : ProcStruct → α), (∀ x (cp yp op : Option Nat),
      g { x with cptr := cp, yptr := yp, optr := op } = g x) → ∀ c, c ≠ p →
      g ((k.forked p v).proc c) = g (k.proc c) := fun g hg c hc =>
    (Kern.linked_field g hg _ p k.current c).trans (by rw [unlinked_other k v hc])
  have hnew : ∀ {α : Type} (g : ProcStruct → α), (∀ x (cp yp op : Option Nat),
      g { x with cptr := cp, yptr := yp, optr := op } = g x) →
      g ((k.forked p v).proc p) = g { ProcStruct.fresh with parent := some k.current, pid := v.lastPid } := fun g hg =>
    (Kern.linked_field g hg _ p k.current p).trans (by rw [unlinked_self])
  have hcptr : ((k.unlinked p v).proc k.current).cptr = (k.proc k.current).cptr := by rw [unlinked_other k v hne]
  refine ⟨?_, ?_, ?_, ?_, ?_, ?_, ?_, ?_, hnew _ fun _ _ _ _ => rfl, hnew _ fun _ _ _ _ => rfl, ?_, ?_, ?_, ?_,
    hfield _ fun _ _ _ _ => rfl, hfield _ fun _ _ _ _ => rfl, fun c hc => ?_, fun c hc => ?_, fun c hc => ?_, fun c hc => ?_⟩
  · rw [Kern.forked, hrest]
    rfl
  · rw [Kern.forked, hrest]
    rfl
  · rw [Kern.forked, hrest]
    rfl
  · rw [Kern.forked, hrest]
    rfl
  · rw [Kern.forked, hrest]
    exact unlinked_hash k p v
  · rw [Kern.forked, hrest]
    rfl
  · rw [Kern.forked, hrest]
    rfl
  · rw [Kern.forked, hrest]
    rfl
  · rw [Kern.forked, Kern.linked_cptr, if_neg hne.symm, unlinked_self]
    rfl
  · rw [Kern.forked, Kern.linked_optr, if_pos rfl, hcptr]
  · rw [Kern.forked, Kern.linked_yptr, if_pos rfl, hcptr, if_neg hhead]
  · rw [hnew ProcStruct.state fun _ _ _ _ => rfl]
    exact ProcState.noConfusion
  · rw [Kern.forked, Kern.linked_optr, if_neg hc, unlinked_other k v hc]
  · rw [hfield ProcStruct.state (fun _ _ _ _ => rfl) c hc]
  · rw [Kern.forked, Kern.linked_cptr, unlinked_other k v hc]
  · rw [Kern.forked, Kern.linked_yptr, hcptr, if_neg hc, unlinked_other k v hc]

/-- Waking a process changes none of it. -/
theorem Forked.woke (h : Forked k k' p q v) (hp : (k'.proc p).state ≠ .zombie) : Forked k (k'.woke p) p q v := by
  have hs : SameFamily k' (k'.woke p) := .woke hp
  refine ⟨hs.live.trans h.live, hs.idleproc.trans h.idleproc, hs.initproc.trans h.initproc, hs.procList.trans h.procList,
    hs.hashList.trans h.hashList, hs.nrProcess.trans h.nrProcess, hs.nextSafe.trans h.nextSafe, hs.lastPid.trans h.lastPid,
    (hs.parent p).trans h.newParent, (hs.pid p).trans h.newPid, (hs.cptr p).trans h.newCptr, (hs.optr p).trans h.newOptr,
    (hs.yptr p).trans h.newYptr, fun hz => hp ((hs.zombie p).mp hz), fun c hc => (hs.parent c).trans (h.parent c hc),
    fun c hc => (hs.pid c).trans (h.pid c hc), fun c hc => (hs.optr c).trans (h.optr c hc),
    fun c hc => (hs.zombie c).trans (h.state c hc), fun c hc => (hs.cptr c).trans (h.cptr c hc),
    fun c hc => (hs.yptr c).trans (h.yptr c hc)⟩

/-- There are not more pids than processes. -/
theorem TreeInv.pids_length (h : TreeInv none k) : (k.pids.length : Int) ≤ k.nrProcess := by
  have hsub : k.procList.toFinset ⊆ k.live := fun p hp => ((h.list p).mp (List.mem_toFinset.mp hp)).1
  have hcard := Finset.card_le_card hsub
  rw [List.toFinset_card_of_nodup h.listNodup] at hcard
  rw [Kern.pids, List.length_map, h.num]
  exact Int.ofNat_le.mpr hcard

theorem getPid_run (h : nextPid k.pids { nextSafe := k.nextSafe, lastPid := k.lastPid } = some v) :
    getPid k = .ok v.lastPid (k.withPids v) := by
  unfold Kern.pids at h
  rw [getPid, Proc.get_bind, h]
  rfl

/-- What `do_fork` changes besides the relations between the processes. -/
structure ForkRest (k k' : Kern) (p : Nat) : Prop where
  current : k'.current = k.current
  sems : SameSems k k'
  exitCode : ∀ c, c ≠ p → (k'.proc c).exitCode = (k.proc c).exitCode
  waiting : ∀ c, Asleep k' c wtChild → c ≠ p ∧ Asleep k c wtChild

/-- **`do_fork`**: all slots are taken, or there is a new process. -/
theorem doFork_spec (h : KernInv k b) (ht : TreeInv none k) (hp : p ∉ k.live) (hawake : Awake k k.current) :
    (doFork p k = .err (-eNoFreeProc) k ∧ k.nrProcess ≥ maxProcess) ∨
    ∃ v k', doFork p k = .ok v.lastPid k' ∧ KernInv k' (Function.update b p none) ∧ TreeInv none k' ∧
      Forked k k' p k.current v ∧ ForkRest k k' p := by
  rw [doFork, Proc.get_bind]
  by_cases hroom : k.nrProcess ≥ maxProcess
  · rw [if_pos hroom]
    exact .inl ⟨rfl, hroom⟩
  · rw [if_neg hroom]
    have hcur := h.run.current
    have hne : k.current ≠ p := fun heq => hp (heq ▸ hcur)
    have hlist : ∀ c ∈ k.procList, c ≠ p := fun c hc heq => hp (heq ▸ ((ht.list c).mp hc).1)
    have hborn : (k.born p).pids = k.pids :=
      List.map_congr_left fun c hc => congrArg ProcStruct.pid (Kern.born_other k (hlist c hc))
    have hlength := ht.pids_length
    obtain ⟨v, hnext, hok, hclear⟩ := nextPid_spec ht.pids (by omega)
    have hpid : getPid (k.born p) = .ok v.lastPid ((k.born p).withPids v) := by
      refine getPid_run ?_
      rw [hborn]
      exact hnext
    have hws : ((k.born p).proc (k.born p).current).waitState = 0 := by
      show ((k.born p).proc k.current).waitState = 0
      rw [Kern.born_other k hne]
      exact hawake.2
    have hparent : ((k.unlinked p v).proc p).parent = some k.current := by rw [unlinked_self]
    have hj := joined_forked k p v
    have hhead : (k.proc k.current).cptr ≠ some p := by
      intro heq
      obtain ⟨_, _, _, hkids⟩ := ht.kids _ hcur
      exact hp (TreeInv.kids_head hkids heq).1
    have hzombie : ((k.forked p v).proc p).state ≠ .zombie := by
      rw [hj.newState]
      exact ProcState.noConfusion
    have hwake : wakeupProc p (k.forked p v) = .ok () ((k.forked p v).woke p) :=
      (h.run.join hj hp).wakeupProc_run hzombie
    have hforked := (forked_forked v hp hcur hhead).woke hzombie
    refine .inr ⟨v, (k.forked p v).woke p, ?_, h.join hj hp, ht.fork hforked hp hcur ?_ hok hclear, hforked, ?_⟩
    · rw [allocProc, Proc.modify_bind, Proc.modify_bind, Proc.get_bind]
      refine (Proc.check_bind_pos hws _ _).trans ?_
      refine (Proc.bind_ok hpid).trans ?_
      rw [Proc.modify_bind, hashProc, Proc.modify_bind]
      refine (Proc.bind_ok (setLinks_run hparent)).trans ?_
      exact (Proc.bind_ok hwake).trans rfl
    · rw [hawake.1]
      exact ProcState.noConfusion
    · have hfield : ∀ {α : Type} (g : ProcStruct → α), (∀ x (cp yp op : Option Nat),
          g { x with cptr := cp, yptr := yp, optr := op } = g x) → ∀ c, c ≠ p →
          g (((k.forked p v).woke p).proc c) = g (k.proc c) := by
        intro α g hg c hc
        rw [Kern.woke_other hc]
        exact (Kern.linked_field g hg _ p k.current c).trans (by rw [unlinked_other k v hc])
      have hrest := Kern.Rescheduled.woke (k.forked p v) p
      refine ⟨Kern.woke_current.trans hj.current, ⟨hrest.semValue.trans hj.semValue, fun i => ?_⟩,
        hfield _ fun _ _ _ _ => rfl, fun c ha => ?_⟩
      · rw [hrest.waitQueue, hj.waitQueue]
      · have hcp : c ≠ p := by
          rintro rfl
          exact ProcState.noConfusion (Kern.woke_state.symm.trans ha.1)
        exact ⟨hcp, (hfield ProcStruct.state (fun _ _ _ _ => rfl) c hcp).symm.trans ha.1,
          (hfield ProcStruct.waitState (fun _ _ _ _ => rfl) c hcp).symm.trans ha.2⟩

end Ucore
