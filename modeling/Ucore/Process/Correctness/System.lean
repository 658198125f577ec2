import Ucore.Process.Correctness.Interrupts
import Ucore.Process.Correctness.Wait

/-!
# `Process.Correctness.System` — what one step of the system does

`Effect` says everything that a step can do to the processes and the semaphores, and what it leaves in the history. The
claims about whole runs are inductions over it; none of them looks at the functions again.
-/

namespace Ucore

def Sys.blocked (s : Sys) (p : Nat) : Option Blocked := (s.pc p).blocked

structure SysInv (s : Sys) : Prop where
  kern : KernInv s.k s.blocked
  tree : TreeInv none s.k
  back : ∀ b, s.pc s.k.current = .post b → Awake s.k s.k.current

/-- Neither in `down` nor at its end. -/
def Pc.Plain (pc : Pc) : Prop := (∀ i, pc.blocked ≠ some (.down i)) ∧ pc.blocked ≠ some .exit

inductive Effect (s : Sys) : Event → Pc → Kern → Prop where
  | quiet {pc : Pc} {k : Kern} (family : SameFamily s.k k) (sems : SameSems s.k k)
      (hpc : (Awake s.k s.k.current ∧ pc.Plain) ∨ pc.blocked = s.blocked s.k.current) : Effect s .other pc k
  | up (i : Nat) : Effect s (.up i (s.k.waitQueue (.sem i)).head?) .run (s.k.upped i)
  | took {i : Nat} (hpos : 0 < s.k.semValue i) : Effect s (.took i s.k.current) .run (s.k.setSem i (s.k.semValue i - 1))
  | queued {i : Nat} (hzero : ¬ 0 < s.k.semValue i) (hawake : Awake s.k s.k.current) :
      Effect s (.queued i s.k.current) (.pre (.down i)) (s.k.blockedOn (.sem i) wtKsem)
  | fork {p : Nat} {v : PidVars} {k : Kern} (hp : p ∉ s.k.live) (hf : Forked s.k k p s.k.current v)
      (hrest : ForkRest s.k k p) : Effect s (.fork p) .run k
  | exit {code : Int} {k : Kern} (hawake : Awake s.k s.k.current) (h : Exited s.k k code) :
      Effect s (.exit s.k.current code) (.pre .exit) k
  | wait {pid : Int} {k : Kern} (hrest : WaitRest s.k k) (hlook : LookOk s.k pid .none) :
      Effect s .other (.pre (.wait pid)) k
  | reap {pid : Int} {p : Nat} {k : Kern} (hawake : Awake s.k s.k.current) (hr : Reaped s.k k p s.k.current)
      (hrest : ReapRest s.k k) (hlook : LookOk s.k pid (.found p)) :
      Effect s (.reported s.k.current pid p (s.k.proc p).exitCode) .run k

/-- A step has got to `k'`, with all the invariants. -/
structure Moved (s : Sys) (e : Event) (pc : Pc) (k' : Kern) : Prop where
  effect : Effect s e pc k'
  inv : SysInv (s.move k' e pc)

/-- The call ends in a step like that. -/
def Moves (s : Sys) (x : Outcome KernPanic Int Kern (Event × Pc)) : Prop :=
  ∃ e pc k', x = .ok (e, pc) k' ∧ Moved s e pc k'

variable {s s' : Sys} {k k' : Kern} {b : Nat → Option Blocked} {p q i : Nat} {e : Event} {pc : Pc} {l : Label}

/-! ## Where the processes are -/

theorem Sys.blocked_move (s : Sys) (k' : Kern) (pc : Pc) (he : ∀ p, e ≠ .fork p) :
    (s.move k' e pc).blocked = Function.update s.blocked s.k.current pc.blocked := by
  funext p
  show Pc.blocked (if p = s.k.current then pc else if e = .fork p then .run else s.pc p) = _
  by_cases hp : p = s.k.current
  · rw [if_pos hp, hp, Function.update_self]
  · rw [if_neg hp, if_neg (he p), Function.update_of_ne hp]
    rfl

theorem Sys.blocked_same (s : Sys) (k' : Kern) (pc : Pc) (he : ∀ p, e ≠ .fork p) (hpc : pc.blocked = s.blocked s.k.current) :
    (s.move k' e pc).blocked = s.blocked := by
  rw [Sys.blocked_move s k' pc he, hpc, Function.update_eq_self]

theorem Sys.blocked_fork (s : Sys) (k' : Kern) (hp : p ≠ s.k.current) (hrun : s.pc s.k.current = .run) :
    (s.move k' (.fork p) .run).blocked = Function.update s.blocked p none := by
  funext q
  show Pc.blocked (if q = s.k.current then .run else if Event.fork p = .fork q then .run else s.pc q) = _
  by_cases hq : q = s.k.current
  · have hqp : q ≠ p := fun heq => hp (heq.symm.trans hq)
    rw [if_pos hq, Function.update_of_ne hqp, hq, Sys.blocked, hrun]
  · rw [if_neg hq]
    by_cases hqp : q = p
    · rw [if_pos (by rw [hqp]), hqp, Function.update_self]
      rfl
    · rw [if_neg (fun heq => hqp (Event.fork.inj heq).symm), Function.update_of_ne hqp]
      rfl

namespace SysInv

/-- The running process is awake, unless it is on its way to `schedule`. -/
theorem awake (h : SysInv s) (hpc : ∀ b, s.pc s.k.current ≠ .pre b) : Awake s.k s.k.current := by
  cases hrun : s.pc s.k.current with
  | run =>
    have hw := h.kern.waits _ h.kern.run.current
    rw [Sys.blocked, hrun] at hw
    exact hw
  | pre b => exact absurd hrun (hpc b)
  | post b => exact h.back b hrun

/-- Whoever waits for nothing but a child, or comes back from that, is in no queue. -/
theorem free (h : SysInv s) (hb : s.blocked s.k.current = none ∨ ∃ pid, s.blocked s.k.current = some (.wait pid)) :
    KernInv.Free s.k := by
  rcases hb with hb | ⟨pid, hb⟩
  · exact h.kern.free_of_none hb
  · exact h.kern.free (fun _ he => nomatch hb.symm.trans he) (fun _ he => nomatch hb.symm.trans he)
      fun he => nomatch hb.symm.trans he

end SysInv

/-! ## The kinds of steps -/

/-- The same process goes on. -/
theorem Moved.of_stays (heffect : Effect s e pc k') (hcur : k'.current = s.k.current) (he : ∀ p, e ≠ .fork p)
    (hkern : KernInv k' (Function.update s.blocked s.k.current pc.blocked)) (htree : TreeInv none k')
    (hpc : ∀ b, pc ≠ .post b) : Moved s e pc k' := by
  refine ⟨heffect, ?_, htree, fun b hb => ?_⟩
  · rw [Sys.blocked_move s k' pc he]
    exact hkern
  · have hself : (s.move k' e pc).pc (s.move k' e pc).k.current = pc := by
      show (if k'.current = s.k.current then pc else _) = pc
      rw [if_pos hcur]
    exact absurd (hself.symm.trans hb) (hpc b)

/-- Nothing of interest has happened. -/
theorem Moved.of_quiet (h : SysInv s) (hq : Quiet s.k k') (hawake : Awake s.k s.k.current)
    (hkern : KernInv k' (Function.update s.blocked s.k.current pc.blocked)) (hplain : pc.Plain) (hpc : ∀ b, pc ≠ .post b) :
    Moved s .other pc k' :=
  .of_stays (.quiet hq.family hq.sems (.inl ⟨hawake, hplain⟩)) hq.current (fun _ he => nomatch he) hkern
    (h.tree.congr hq.family.toSameTree) hpc

/-- An interrupt. -/
theorem Moved.of_interrupt (h : SysInv s) (hq : Quiet s.k k') (hkern : KernInv k' s.blocked)
    (hstill : StillRunnable s.k k') : Moved s .other (s.pc s.k.current) k' := by
  have hblocked : (s.move k' .other (s.pc s.k.current)).blocked = s.blocked :=
    Sys.blocked_same s k' _ (fun _ he => nomatch he) rfl
  refine ⟨.quiet hq.family hq.sems (.inr rfl), ?_, h.tree.congr hq.family.toSameTree, fun b hb => ?_⟩
  · rw [hblocked]
    exact hkern
  · have hself : (s.move k' .other (s.pc s.k.current)).pc k'.current = s.pc s.k.current := by
      show (if k'.current = s.k.current then s.pc s.k.current else _) = _
      rw [if_pos hq.current]
    -- the process was back and could run, so it still can
    have hr := hstill _ (h.back b (hself.symm.trans hb)).1
    have hw := hkern.waits _ hkern.run.current
    rw [← hq.current] at hr
    exact hw.awake hr

theorem Pc.plain_run : Pc.Plain .run := ⟨fun _ he => (nomatch he), fun he => (nomatch he)⟩

theorem Moved.of_unmoved (h : SysInv s) (hpc : s.pc s.k.current = .run) : Moved s .other .run s.k := by
  have hb : s.blocked s.k.current = none := by rw [Sys.blocked, hpc]; rfl
  refine .of_quiet h (.refl s.k) (h.awake fun b hb => nomatch hpc.symm.trans hb) ?_ Pc.plain_run fun _ he => nomatch he
  show KernInv s.k (Function.update s.blocked s.k.current none)
  rw [← hb, Function.update_eq_self]
  exact h.kern

/-! ## Calls -/

namespace SysInv

/-- The running process no longer waits for anything. -/
theorem ran (h : SysInv s) (hawake : Awake s.k s.k.current) (hfree : KernInv.Free s.k) :
    KernInv s.k (Function.update s.blocked s.k.current none) :=
  h.kern.relabel hfree hawake (fun _ => .inl rfl) fun he => nomatch he

theorem waitGo_moves (h : SysInv s) (hawake : Awake s.k s.k.current) (hfree : KernInv.Free s.k)
    (hidle : s.k.current ≠ s.k.idleproc) (pid : Int) : Moves s (waitGo pid s.k) := by
  have hran := h.ran hawake hfree
  rw [waitGo, Proc.get_bind, Proc.bind_run, Proc.attempt]
  rcases doWait_spec hran h.tree hfree hawake hidle pid with hbad | ⟨k', hwait, hkern, htree, hrest, hlook⟩ |
      ⟨p, k', hfound, hkern, htree, hreaped, hrest, hlook⟩
  · rw [hbad]
    exact ⟨_, _, _, rfl, .of_quiet h (.refl s.k) hawake hran Pc.plain_run fun _ he => by cases he⟩
  · rw [hwait]
    rw [Function.update_idem] at hkern
    exact ⟨_, _, _, rfl, .of_stays (.wait hrest hlook) hrest.current (fun _ he => by cases he) hkern htree fun _ he => by cases he⟩
  · rw [hfound]
    exact ⟨_, _, _, rfl, .of_stays (.reap hawake hreaped hrest hlook) hrest.current (fun _ he => by cases he) hkern htree
      fun _ he => by cases he⟩

theorem exitGo_moves (h : SysInv s) (hawake : Awake s.k s.k.current) (hfree : KernInv.Free s.k)
    (hidle : s.k.current ≠ s.k.idleproc) (code : Int) : exitGo code s.k = .panic .initExit ∨ Moves s (exitGo code s.k) := by
  have hrun : exitGo code s.k = (doExit code >>= fun _ => pure (.exit s.k.current code, .pre .exit) : KernM (Event × Pc)) s.k := rfl
  by_cases hinit : s.k.current = s.k.initproc
  · refine .inl ?_
    rw [hrun, Proc.bind_run, doExit_init hidle hinit]
  · obtain ⟨k', hexit, hkern, htree, hexited⟩ := doExit_spec (h.ran hawake hfree) h.tree hfree hawake hidle hinit code
    rw [Function.update_idem] at hkern
    refine .inr ⟨_, _, k', ?_, .of_stays (.exit hawake hexited) hexited.current (fun _ he => nomatch he) hkern htree
      fun _ he => nomatch he⟩
    rw [hrun, Proc.bind_ok hexit]
    rfl

/-- The rest of a read that ended so. -/
theorem read_moves (h : SysInv s) (hawake : Awake s.k s.k.current) {r : Option Nat} (hq : Quiet s.k k')
    (hkern : KernInv k' (Function.update s.blocked s.k.current (r.map .read))) :
    Moves s ((match (motive := Option Nat → KernM (Event × Pc)) r with
      | none      => pure (.other, .run)
      | some left => pure (.other, .pre (.read left))) k') := by
  cases r with
  | none => exact ⟨_, _, k', rfl, .of_quiet h hq hawake hkern Pc.plain_run fun _ he => nomatch he⟩
  | some left =>
    have hplain : Pc.Plain (.pre (.read left)) := ⟨fun _ he => (nomatch he), fun he => (nomatch he)⟩
    exact ⟨_, _, k', rfl, .of_quiet h hq hawake hkern hplain fun _ he => nomatch he⟩

theorem fork_moves (h : SysInv s) (hpc : s.pc s.k.current = .run) (hp : p ∉ s.k.live) :
    Moves s ((Call.fork p).start s.k) := by
  have hawake := h.awake fun b hb => by cases hpc.symm.trans hb
  rw [Call.start, Proc.bind_run, Proc.attempt]
  rcases doFork_spec h.kern h.tree hp hawake with ⟨hfull, -⟩ | ⟨v, k', hfork, hkern, htree, hforked, hrest⟩
  · rw [hfull]
    exact ⟨_, _, _, rfl, .of_unmoved h hpc⟩
  · rw [hfork]
    have hne : p ≠ s.k.current := fun heq => hp (heq ▸ h.kern.run.current)
    refine ⟨_, _, k', rfl, .fork hp hforked hrest, ?_, htree, fun b hb => ?_⟩
    · rw [Sys.blocked_fork s k' hne hpc]
      exact hkern
    · have hself : (s.move k' (.fork p) .run).pc k'.current = .run := by
        show (if k'.current = s.k.current then Pc.run else _) = _
        rw [if_pos hrest.current]
      cases hself.symm.trans hb

/-- A flag of a process that nothing here looks at. -/
theorem quiet_exiting (k : Kern) (p : Nat) : SameSched k (k.modProc p fun x => { x with exiting := true }) ∧
    Quiet k (k.modProc p fun x => { x with exiting := true }) := by
  let f : ProcStruct → ProcStruct := fun x => { x with exiting := true }
  have hfield : ∀ {α : Type} (g : ProcStruct → α), (∀ x, g (f x) = g x) → ∀ c, g ((k.modProc p f).proc c) = g (k.proc c) :=
    fun g hg c => Kern.modProc_field g hg k p c
  have hstate := hfield ProcStruct.state fun _ => rfl
  have hws := hfield ProcStruct.waitState fun _ => rfl
  refine ⟨.modProc (f := f) (fun _ => rfl) (fun _ => rfl) (fun _ => rfl) k p, ⟨⟨?_, fun c ha => ?_⟩, ⟨rfl, fun _ => rfl⟩, rfl⟩⟩
  · exact ⟨hfield _ fun _ => rfl, hfield _ fun _ => rfl, hfield _ fun _ => rfl, hfield _ fun _ => rfl, hfield _ fun _ => rfl,
      hfield _ fun _ => rfl, fun c => by rw [hstate], rfl, rfl, rfl, rfl, rfl, rfl, rfl, rfl⟩
  · exact ⟨(hstate c).symm.trans ha.1, (hws c).symm.trans ha.2⟩

/-- **`do_kill`** sets a flag and wakes up its process, unless that is in `down`. -/
theorem doKill_quiet (h : SysInv s) (pid : Int) : ∃ r k', Proc.attempt (doKill pid) s.k = .ok r k' ∧
    KernInv k' s.blocked ∧ Quiet s.k k' := by
  rw [Proc.attempt, doKill, Proc.get_bind]
  cases hfind : s.k.findProc pid with
  | none => exact ⟨_, _, rfl, h.kern, .refl _⟩
  | some p =>
    obtain ⟨hlive, -, -⟩ := h.tree.findProc_eq_some.mp hfind
    dsimp only
    by_cases hexiting : (s.k.proc p).exiting = false
    · rw [if_pos hexiting, Proc.put_bind]
      obtain ⟨hsame, hq1⟩ := quiet_exiting s.k p
      have h1 := h.kern.congr hsame
      by_cases hint : interruptible (s.k.proc p).waitState = true
      · -- it sleeps, but not in `down`, and it has not exited
        have hw := h.kern.waits p hlive
        have hdown : ∀ i, s.blocked p ≠ some (.down i) := by
          intro i hb
          rw [hb] at hw
          rcases hw with ⟨hasleep, -⟩ | ⟨hawake, -⟩
          · rw [hasleep.2] at hint
            cases hint
          · rw [hawake.2] at hint
            cases hint
        have hexit : s.blocked p ≠ some .exit := by
          intro hb
          rw [hb] at hw
          rw [hw.2] at hint
          cases hint
        have hz := fun hz => hexit (hw.zombie.mp ((hq1.family.zombie p).mp hz))
        rw [if_pos hint]
        have hlive1 : p ∈ (s.k.modProc p fun x => { x with exiting := true }).live := hlive
        refine ⟨.ok 0, _, ?_, h1.woke hlive1 hdown hexit, hq1.trans (.woke hz)⟩
        rw [Proc.bind_ok (h1.run.wakeupProc_run hz)]
        rfl
      · rw [if_neg hint]
        exact ⟨_, _, rfl, h1, hq1⟩
    · rw [if_neg hexiting]
      exact ⟨_, _, rfl, h.kern, .refl _⟩

theorem blocked_run (hpc : s.pc s.k.current = .run) : s.blocked s.k.current = none := by
  rw [Sys.blocked, hpc]
  rfl

/-- A process that has called nothing goes on like this. -/
theorem still_run (hpc : s.pc s.k.current = .run) (hkern : KernInv k' s.blocked) :
    KernInv k' (Function.update s.blocked s.k.current none) := by
  rw [← blocked_run hpc, Function.update_eq_self]
  exact hkern

theorem sameFamily_setSem (k : Kern) (i : Nat) (v : Int) : SameFamily k (k.setSem i v) :=
  .of_proc rfl rfl rfl rfl rfl rfl rfl rfl rfl

theorem took_moves (h : SysInv s) (hpc : s.pc s.k.current = .run) (hpos : 0 < s.k.semValue i) :
    Moved s (.took i s.k.current) .run (s.k.setSem i (s.k.semValue i - 1)) :=
  .of_stays (.took hpos) rfl (fun _ he => nomatch he) (still_run hpc (h.kern.taken hpos))
    (h.tree.congr (sameFamily_setSem s.k i _).toSameTree) fun _ he => nomatch he

theorem upped_current (k : Kern) (i : Nat) : (k.upped i).current = k.current := by
  rw [Kern.upped]
  split
  · rfl
  · exact Kern.woke_current

theorem start_down (hfree : KernInv.Free k) (i : Nat) : (Call.down i).start k =
    if 0 < k.semValue i then .ok (.took i k.current, .run) (k.setSem i (k.semValue i - 1))
    else .ok (.queued i k.current, .pre (.down i)) (k.blockedOn (.sem i) wtKsem) := by
  have hrun : (Call.down i).start k = (downStart i >>= fun r => if r = true then pure (.took i k.current, .run)
      else pure (.queued i k.current, .pre (.down i)) : KernM (Event × Pc)) k := rfl
  rw [hrun, Proc.bind_run, KernInv.downStart_run hfree]
  by_cases hpos : 0 < k.semValue i
  · rw [if_pos hpos, if_pos hpos]
    rfl
  · rw [if_neg hpos, if_neg hpos]
    rfl

theorem start_up (h : KernInv k b) (i : Nat) :
    (Call.up i).start k = .ok (.up i (k.waitQueue (.sem i)).head?, .run) (k.upped i) := by
  have hrun : (Call.up i).start k = (up i >>= fun _ => pure (.up i (k.waitQueue (.sem i)).head?, .run) :
    KernM (Event × Pc)) k := rfl
  rw [hrun, Proc.bind_ok (h.up_run i)]
  rfl

theorem down_moves (h : SysInv s) (hpc : s.pc s.k.current = .run) (hidle : s.k.current ≠ s.k.idleproc) (i : Nat) :
    Moves s ((Call.down i).start s.k) := by
  have hawake := h.awake fun b hb => nomatch hpc.symm.trans hb
  have hfree := h.free (.inl (blocked_run hpc))
  rw [start_down hfree]
  by_cases hpos : 0 < s.k.semValue i
  · rw [if_pos hpos]
    exact ⟨_, _, _, rfl, h.took_moves hpc hpos⟩
  · rw [if_neg hpos]
    have hkern : KernInv (s.k.blockedOn (.sem i) wtKsem) (Function.update s.blocked s.k.current (some (.down i))) :=
      h.kern.blockedOn hfree hidle rfl (fun j hj => QueueId.sem.inj hj ▸ hpos) (fun _ _ => rfl) fun he => nomatch he
    have hsame : SameFamily s.k (s.k.blockedOn (.sem i) wtKsem) := .blockedOn hawake.1 _ (by decide)
    exact ⟨_, _, _, rfl, .of_stays (.queued hpos hawake) rfl (fun _ he => nomatch he) hkern (h.tree.congr hsame.toSameTree)
      fun _ he => nomatch he⟩

/-- **A call** goes well, unless `initproc` exits. -/
theorem start_moves (h : SysInv s) (hpc : s.pc s.k.current = .run) {c : Call} (hok : c.Ok s.k) :
    c.start s.k = .panic .initExit ∨ Moves s (c.start s.k) := by
  have hawake := h.awake fun b hb => nomatch hpc.symm.trans hb
  have hfree := h.free (.inl (blocked_run hpc))
  cases c with
  | yield =>
    have hkern := h.kern.relabel (o := some .yield) hfree hawake (fun _ => .inr rfl) fun he => nomatch he
    have hplain : Pc.Plain (.pre .yield) := ⟨fun _ he => (nomatch he), fun he => (nomatch he)⟩
    exact .inr ⟨_, _, s.k, rfl, .of_quiet h (.refl s.k) hawake hkern hplain fun _ he => nomatch he⟩
  | up i =>
    rw [start_up h.kern]
    exact .inr ⟨_, _, _, rfl, .of_stays (.up i) (upped_current s.k i) (fun _ he => nomatch he)
      (still_run hpc (h.kern.upped i)) (h.tree.congr (h.kern.sameFamily_upped i).toSameTree) fun _ he => nomatch he⟩
  | down i => exact .inr (h.down_moves hpc hok i)
  | tryDown i =>
    have hrun : (Call.tryDown i).start s.k = (tryDown i >>= fun r => if r = true then pure (.took i s.k.current, .run)
      else pure (.other, .run) : KernM (Event × Pc)) s.k := rfl
    rw [hrun, Proc.bind_run, KernInv.tryDown_run]
    by_cases hpos : 0 < s.k.semValue i
    · rw [if_pos hpos]
      exact .inr ⟨_, _, _, rfl, h.took_moves hpc hpos⟩
    · rw [if_neg hpos]
      exact .inr ⟨_, _, _, rfl, .of_unmoved h hpc⟩
  | fork p => exact .inr (h.fork_moves hpc hok.2)
  | exit code => exact h.exitGo_moves hawake hfree hok code
  | wait pid => exact .inr (h.waitGo_moves hawake hfree hok pid)
  | kill pid =>
    obtain ⟨r, k', hkill, hkern, hq⟩ := h.doKill_quiet pid
    have hmoved : Moved s .other .run k' := .of_quiet h hq hawake (still_run hpc hkern) Pc.plain_run fun _ he => nomatch he
    exact .inr ⟨_, _, k', (Proc.bind_ok hkill).trans rfl, hmoved⟩
  | sleep time =>
    have hrun : (Call.sleep time).start s.k = (doSleep time >>= fun r => if r = true then pure (.other, .run)
      else pure (.other, .pre .sleep) : KernM (Event × Pc)) s.k := rfl
    rw [hrun, Proc.bind_run]
    rcases doSleep_quiet h.kern (blocked_run hpc) hok time with hzero | ⟨k', hsleep, hkern, hq⟩
    · rw [hzero]
      exact .inr ⟨_, _, _, rfl, .of_unmoved h hpc⟩
    · rw [hsleep]
      have hplain : Pc.Plain (.pre .sleep) := ⟨fun _ he => (nomatch he), fun he => (nomatch he)⟩
      exact .inr ⟨_, _, _, rfl, .of_quiet h hq hawake hkern hplain fun _ he => nomatch he⟩
  | read len =>
    obtain ⟨r, k', hread, hkern, hq⟩ := devStdinRead_quiet len s.k h.kern (blocked_run hpc) hok
    refine .inr ?_
    show Moves s (readGo len s.k)
    rw [readGo, Proc.bind_ok hread]
    exact h.read_moves hawake hq hkern

/-! ## Behind `schedule` -/

/-- `idleproc` comes back from nothing but yielding. -/
theorem not_idle (h : SysInv s) {o : Blocked} (hpc : s.pc s.k.current = .post o) (ho : o ≠ .yield) :
    s.k.current ≠ s.k.idleproc := by
  intro heq
  have hb : s.blocked s.k.idleproc = some o := by
    rw [← heq, Sys.blocked, hpc]
    rfl
  rcases h.kern.idle with hnone | hyield
  · exact nomatch hb.symm.trans hnone
  · exact ho (Option.some.inj (hb.symm.trans hyield))

theorem blocked_post {o : Blocked} (hpc : s.pc s.k.current = .post o) : s.blocked s.k.current = some o := by
  rw [Sys.blocked, hpc]
  rfl

/-- **What comes behind a `schedule`** goes well, unless `initproc` was killed and exits. -/
theorem resume_moves (h : SysInv s) {o : Blocked} (hpc : s.pc s.k.current = .post o) :
    o.resume s.k = .panic .initExit ∨ Moves s (o.resume s.k) := by
  have hawake := h.back o hpc
  have hb := blocked_post hpc
  cases o with
  | yield =>
    have hfree : KernInv.Free s.k := h.kern.free (fun _ he => nomatch hb.symm.trans he) (fun _ he => nomatch hb.symm.trans he)
      fun he => nomatch hb.symm.trans he
    exact .inr ⟨_, _, s.k, rfl, .of_quiet h (.refl s.k) hawake (h.ran hawake hfree) Pc.plain_run fun _ he => nomatch he⟩
  | down i =>
    have hran := h.ran hawake (h.kern.free_of_down hb hawake)
    have hmoved : Moved s .other .run s.k := .of_quiet h (.refl s.k) hawake hran Pc.plain_run fun _ he => nomatch he
    exact .inr ⟨_, _, s.k, (Proc.bind_ok (h.kern.downEnd_run hb hawake)).trans rfl, hmoved⟩
  | wait pid =>
    have hidle := h.not_idle hpc Blocked.noConfusion
    have hfree := h.free (.inr ⟨pid, hb⟩)
    rw [Blocked.resume, Proc.get_bind]
    split
    · exact h.exitGo_moves hawake hfree hidle _
    · exact .inr (h.waitGo_moves hawake hfree hidle pid)
  | sleep =>
    obtain ⟨k', hdel, hkern, hq⟩ := delTimer_quiet h.kern hb hawake (h.not_idle hpc Blocked.noConfusion)
    have hmoved : Moved s .other .run k' := .of_quiet h hq hawake hkern Pc.plain_run fun _ he => nomatch he
    refine .inr ⟨_, _, k', ?_, hmoved⟩
    rw [Blocked.resume, Proc.get_bind, Proc.bind_ok hdel]
    rfl
  | read left =>
    obtain ⟨r, k', hread, hkern, hq⟩ := devStdinResume_quiet h.kern hb hawake (h.not_idle hpc Blocked.noConfusion)
    refine .inr ?_
    rw [Blocked.resume, Proc.bind_ok hread]
    exact h.read_moves hawake hq hkern
  | exit =>
    -- a zombie is not run again
    have hw := h.kern.waits _ h.kern.run.current
    rw [hb] at hw
    exact ProcState.noConfusion (hw.1.symm.trans hawake.1)

/-- **`schedule`** goes well. -/
theorem switch_moves (h : SysInv s) {o : Blocked} (hpc : s.pc s.k.current = .pre o) :
    schedule s.k = .ok () s.k.switched ∧ Moved s .other (.post o) s.k.switched := by
  have hsame : Pc.blocked (.post o) = s.blocked s.k.current := by
    rw [Sys.blocked, hpc]
    rfl
  have hblocked : (s.move s.k.switched .other (.post o)).blocked = s.blocked :=
    Sys.blocked_same s _ _ (fun _ he => nomatch he) hsame
  have hfamily := SameFamily.switched s.k
  refine ⟨h.kern.run.schedule_run, .quiet hfamily (.of_rescheduled (Kern.Rescheduled.switched s.k)) (.inr hsame), ?_,
    h.tree.congr hfamily.toSameTree, fun _ _ => ?_⟩
  · rw [hblocked]
    exact h.kern.switched
  · have hawake := h.kern.awake_switched
    exact ⟨(switched_proc _ (fun _ _ _ _ => rfl) _).trans hawake.1, (switched_proc _ (fun _ _ _ _ => rfl) _).trans hawake.2⟩

/-! ## Steps -/

/-- **Every step** has one of the effects, and keeps the invariants. -/
theorem step (h : SysInv s) (hs : Step s l s') : ∃ e pc k', s' = s.move k' e pc ∧ Moved s e pc k' := by
  have hmoves : ∀ {x : Outcome KernPanic Int Kern (Event × Pc)} {e pc k'}, x = .panic .initExit ∨ Moves s x →
      x = .ok (e, pc) k' → Moved s e pc k' := by
    rintro x e pc k' (hpanic | ⟨e', pc', k'', hok, hmoved⟩) hx
    · exact nomatch hpanic.symm.trans hx
    · obtain ⟨heq, rfl⟩ := Outcome.ok.inj (hok.symm.trans hx)
      obtain ⟨rfl, rfl⟩ := Prod.mk.inj heq
      exact hmoved
  cases hs with
  | call hpc hok hrun => exact ⟨_, _, _, rfl, hmoves (h.start_moves hpc hok) hrun⟩
  | switch hpc hrun =>
    obtain ⟨hok, hmoved⟩ := h.switch_moves hpc
    obtain ⟨-, rfl⟩ := Outcome.ok.inj (hok.symm.trans hrun)
    exact ⟨_, _, _, rfl, hmoved⟩
  | resume hpc hrun => exact ⟨_, _, _, rfl, hmoves (h.resume_moves hpc) hrun⟩
  | tick hrun =>
    rcases runTimerList_quiet h.kern with hpanic | ⟨k', hok, hkern, hq⟩
    · exact nomatch hpanic.symm.trans hrun
    · obtain ⟨-, rfl⟩ := Outcome.ok.inj (hok.symm.trans hrun)
      exact ⟨_, _, _, rfl, .of_interrupt h hq hkern (keeps_runTimerList.ok hok)⟩
  | key hrun =>
    obtain ⟨k', hok, hkern, hq⟩ := devStdinWrite_quiet h.kern
    obtain ⟨-, rfl⟩ := Outcome.ok.inj (hok.symm.trans hrun)
    exact ⟨_, _, _, rfl, .of_interrupt h hq hkern (keeps_devStdinWrite.ok hok)⟩

theorem after (h : SysInv s) (hs : Step s l s') : SysInv s' := by
  obtain ⟨_, _, _, rfl, hmoved⟩ := h.step hs
  exact hmoved.inv

/-- The only assertions that can fail. -/
theorem stops {x : KernPanic} (h : SysInv s) (hs : Stops s x) : x = .timerHead ∨ x = .initExit := by
  have hmoves : ∀ {o : Outcome KernPanic Int Kern (Event × Pc)}, o = .panic .initExit ∨ Moves s o → o = .panic x →
      x = .timerHead ∨ x = .initExit := by
    rintro o (hpanic | ⟨_, _, _, hok, -⟩) ho
    · exact .inr (Outcome.panic.inj (ho.symm.trans hpanic))
    · exact nomatch hok.symm.trans ho
  cases hs with
  | call hpc hok hrun => exact hmoves (h.start_moves hpc hok) hrun
  | switch hpc hrun => exact nomatch (h.switch_moves hpc).1.symm.trans hrun
  | resume hpc hrun => exact hmoves (h.resume_moves hpc) hrun
  | tick hrun =>
    rcases runTimerList_quiet h.kern with hpanic | ⟨k', hok, -, -⟩
    · exact .inl (Outcome.panic.inj (hrun.symm.trans hpanic))
    · exact nomatch hok.symm.trans hrun
  | key hrun =>
    obtain ⟨k', hok, -, -⟩ := devStdinWrite_quiet h.kern
    exact nomatch hok.symm.trans hrun

end SysInv

/-! ## The steps of semaphores -/

namespace SysInv

theorem step_down (h : SysInv s) (hs : Step s (.call (.down i)) s') : s.pc s.k.current = .run ∧
    ((0 < s.k.semValue i ∧ s' = s.move (s.k.setSem i (s.k.semValue i - 1)) (.took i s.k.current) .run) ∨
    (¬ 0 < s.k.semValue i ∧ s' = s.move (s.k.blockedOn (.sem i) wtKsem) (.queued i s.k.current) (.pre (.down i)))) := by
  cases hs with
  | call hpc hok hrun =>
    have hfree := h.free (.inl (blocked_run hpc))
    refine ⟨hpc, ?_⟩
    rw [start_down hfree] at hrun
    by_cases hpos : 0 < s.k.semValue i
    · rw [if_pos hpos] at hrun
      obtain ⟨heq, rfl⟩ := Outcome.ok.inj hrun
      obtain ⟨rfl, rfl⟩ := Prod.mk.inj heq
      exact .inl ⟨hpos, rfl⟩
    · rw [if_neg hpos] at hrun
      obtain ⟨heq, rfl⟩ := Outcome.ok.inj hrun
      obtain ⟨rfl, rfl⟩ := Prod.mk.inj heq
      exact .inr ⟨hpos, rfl⟩

theorem step_up (h : SysInv s) (hs : Step s (.call (.up i)) s') : s.pc s.k.current = .run ∧
    s' = s.move (s.k.upped i) (.up i (s.k.waitQueue (.sem i)).head?) .run := by
  cases hs with
  | call hpc hok hrun =>
    rw [start_up h.kern] at hrun
    obtain ⟨heq, rfl⟩ := Outcome.ok.inj hrun
    obtain ⟨rfl, rfl⟩ := Prod.mk.inj heq
    exact ⟨hpc, rfl⟩

/-- Behind the `schedule` in `down` nothing is left to do. -/
theorem step_back (h : SysInv s) (hb : s.blocked s.k.current = some (.down i)) (hs : Step s .resume s') :
    s.pc s.k.current = .post (.down i) ∧ s.k.current ∉ s.k.waitQueue (.sem i) ∧ s' = s.move s.k .other .run := by
  cases hs with
  | resume hpc hrun =>
    obtain rfl := Option.some.inj ((blocked_post hpc).symm.trans hb)
    have hawake := h.back _ hpc
    have hrun' : (Blocked.down i).resume s.k = .ok (.other, .run) s.k :=
      (Proc.bind_ok (h.kern.downEnd_run hb hawake)).trans rfl
    obtain ⟨heq, rfl⟩ := Outcome.ok.inj (hrun'.symm.trans hrun)
    obtain ⟨rfl, rfl⟩ := Prod.mk.inj heq
    exact ⟨hpc, (h.kern.released_of_awake hb hawake).1, rfl⟩

end SysInv

/-! ## The beginning -/

section
variable {semValue : Nat → Int}

theorem kernInv_idle (hsem : ∀ i, 0 ≤ semValue i) : KernInv (Kern.idle semValue) fun _ => none where
  run := ⟨Finset.mem_singleton_self _, Finset.mem_singleton_self _, List.nodup_nil,
    fun _ => ⟨fun hmem => absurd hmem List.not_mem_nil, fun hand => absurd (Finset.mem_singleton.mp hand.1) hand.2.2.1⟩,
    fun _ hmem => absurd hmem List.not_mem_nil, rfl⟩
  queue := ⟨fun _ => List.nodup_nil, fun _ _ hmem => absurd hmem List.not_mem_nil, fun _ hmem => absurd hmem List.not_mem_nil,
    List.nodup_nil, hsem, fun _ _ => rfl⟩
  waits _ _ := ⟨rfl, rfl⟩
  idle := .inl rfl
  init := ⟨Finset.mem_singleton_self _, fun he => (nomatch he)⟩

theorem treeInv_idle : TreeInv none (Kern.idle semValue) := by
  have honly : ∀ p, p ∈ (Kern.idle semValue).live → p = (Kern.idle semValue).idleproc := fun p hmem => Finset.mem_singleton.mp hmem
  have hnone : ∀ q p, ¬ (Kern.idle semValue).IsChild q p := fun q p hchild => nomatch hchild.2
  have hnil : ∀ pid : Int, pid ∉ (Kern.idle semValue).pids := fun _ => List.not_mem_nil
  refine ⟨Finset.mem_singleton_self _, ⟨rfl, rfl, rfl⟩, ⟨Finset.mem_singleton_self _, .inl rfl⟩,
    fun p hlive hidle => absurd (honly p hlive) hidle, fun q _ => ⟨none, [], fun _ => rfl, rfl, List.nodup_nil, ?_⟩,
    fun _ _ _ hz => (nomatch hz), List.nodup_nil, fun p => ?_, fun _ => List.nodup_nil, fun i p => ?_, ?_,
    ⟨List.nodup_nil, fun pid hmem => absurd hmem (hnil pid), fun pid hmem => absurd hmem (hnil pid),
      show 1 ≤ maxPid by decide, Int.le_refl _⟩⟩
  · exact fun p => ⟨fun hmem => absurd hmem List.not_mem_nil, fun hchild => absurd hchild (hnone q p)⟩
  · exact ⟨fun hmem => absurd hmem List.not_mem_nil, fun hand => absurd (honly p hand.1) hand.2⟩
  · exact ⟨fun hmem => absurd hmem List.not_mem_nil, fun hand => absurd (honly p hand.1) hand.2.1⟩
  · show (1 : Int) = ((({0} : Finset Nat).card : Nat) : Int)
    rw [Finset.card_singleton]
    rfl

/-- **`proc_init`** sets up `initproc` as the only child of `idleproc`. -/
theorem procInit_spec (hsem : ∀ i, 0 ≤ semValue i) (hp : p ≠ 0) (h : procInit p (Kern.idle semValue) = .ok () k) :
    KernInv k (fun _ => none) ∧ TreeInv none k ∧ SameSems (Kern.idle semValue) k := by
  have hkern := kernInv_idle hsem
  have hawake : Awake (Kern.idle semValue) (Kern.idle semValue).current := ⟨rfl, rfl⟩
  have hnew : p ∉ (Kern.idle semValue).live := fun hmem => hp (Finset.mem_singleton.mp hmem)
  rcases doFork_spec hkern treeInv_idle hnew hawake with ⟨-, hfull⟩ | ⟨v, k', hfork, hkern', htree, hforked, hrest⟩
  · exact absurd hfull (show ¬ (1 : Int) ≥ maxProcess by decide)
  · rw [Function.update_eq_self_iff.mpr (by rfl)] at hkern'
    have hlive : p ∈ k'.live := by
      rw [hforked.live]
      exact Finset.mem_insert_self _ _
    have hidle : p ≠ k'.idleproc := by
      rw [hforked.idleproc]
      exact hp
    have hfind : k'.findProc v.lastPid = some p := htree.findProc_eq_some.mpr ⟨hlive, hidle, hforked.newPid⟩
    have hrun : procInit p (Kern.idle semValue) = .ok () { k' with initproc := p } := by
      rw [procInit, Proc.bind_ok hfork, Proc.get_bind, hfind]
      rfl
    obtain ⟨-, rfl⟩ := Outcome.ok.inj (hrun.symm.trans h)
    refine ⟨⟨?_, ?_, ?_, hkern'.idle, hlive, fun he => nomatch he⟩, ?_, hrest.sems.value, hrest.sems.queue⟩
    · exact hkern'.run.congr (fun _ => rfl) (fun _ => rfl) rfl rfl rfl rfl rfl
    · exact hkern'.queue.congr rfl rfl rfl rfl rfl
    · exact fun q hq => (hkern'.waits q hq).congr rfl rfl rfl fun _ => Iff.rfl
    · have hparent : (k'.proc p).parent = some k'.idleproc := by
        rw [hforked.newParent, hforked.idleproc]
        rfl
      refine ⟨htree.idle, htree.idleLinks, ⟨hlive, .inr hparent⟩, htree.parent, fun q hq => ?_, htree.zombie, htree.listNodup,
        htree.list, htree.hashNodup, htree.hash, htree.num, htree.pids⟩
      obtain ⟨y, l, hy, hkids⟩ := htree.kids q hq
      exact ⟨y, l, hy, hkids.chained, hkids.nodup, hkids.mem⟩

end

theorem sysInv_init (h : SysInit s) : SysInv s := by
  obtain ⟨semValue, hsem, p, hp, hrun, hpc, -⟩ := h
  obtain ⟨hkern, htree, -⟩ := procInit_spec hsem hp hrun
  have hblocked : s.blocked = fun _ => none := by
    funext q
    rw [Sys.blocked, hpc]
    rfl
  refine ⟨?_, htree, fun b hb => ?_⟩
  · rw [hblocked]
    exact hkern
  · rw [hpc] at hb
    exact nomatch hb

/-- The states that the system gets to. -/
abbrev SysReaches : Sys → Prop := Reaches SysInit Step fun _ _ => True

theorem SysReaches.of_start {semValue : Nat → Int} (hsem : ∀ i, 0 ≤ semValue i)
    (h : Reaches (SysStart semValue) Step (fun _ _ => True) s) : SysReaches s :=
  h.invariant (fun _ h0 => .start ⟨semValue, hsem, h0⟩) fun _ _ _ ih _ hs => ih.next trivial hs

/-- **The run lemma.** -/
theorem sysReaches_inv (h : SysReaches s) : SysInv s :=
  h.invariant (fun _ h0 => sysInv_init h0) fun _ _ _ hinv _ hs => hinv.after hs

/-- A property of the system that every effect keeps. -/
theorem sysReaches_effect {I : Sys → Prop} (h0 : ∀ s, SysInit s → I s)
    (hstep : ∀ s e pc k', I s → SysInv s → Moved s e pc k' → I (s.move k' e pc)) (h : SysReaches s) : I s := by
  refine (h.invariant (I := fun s => SysInv s ∧ I s) (fun s hs => ⟨sysInv_init hs, h0 s hs⟩) ?_).2
  rintro s l s' ⟨hinv, hI⟩ - hs
  obtain ⟨e, pc, k', rfl, hmoved⟩ := hinv.step hs
  exact ⟨hmoved.inv, hstep s e pc k' hI hinv hmoved⟩

/-! ## Runs of the executable system -/

theorem Sys.moved_eq_some {x : Outcome KernPanic Int Kern (Event × Pc)} (h : s.moved x = some s') :
    ∃ e pc k, x = .ok (e, pc) k ∧ s' = s.move k e pc := by
  match x, h with
  | .ok (e, pc) k, h => exact ⟨e, pc, k, rfl, (Option.some.inj h).symm⟩

theorem Sys.step_of_next (h : s.next l = some s') : Step s l s' := by
  -- a function that returns nothing, with what the step adds
  have hunit : ∀ {m : KernM Unit} {e pc}, s.moved ((m >>= fun _ => pure (e, pc) : KernM (Event × Pc)) s.k) = some s' →
      ∃ k, m s.k = .ok () k ∧ s' = s.move k e pc := by
    intro m e pc hm
    obtain ⟨e', pc', k, hrun, rfl⟩ := Sys.moved_eq_some hm
    obtain ⟨_, k', hm', hpure⟩ := Proc.bind_eq_ok.mp hrun
    obtain ⟨heq, rfl⟩ := Outcome.ok.inj hpure
    obtain ⟨rfl, rfl⟩ := Prod.mk.inj heq
    exact ⟨_, hm', rfl⟩
  cases l with
  | call c =>
    rw [Sys.next] at h
    split at h
    · next hand =>
      obtain ⟨e, pc, k, hrun, rfl⟩ := Sys.moved_eq_some h
      exact .call hand.1 hand.2 hrun
    · exact nomatch h
  | switch =>
    rw [Sys.next] at h
    split at h
    · next b hpc =>
      obtain ⟨k, hrun, rfl⟩ := hunit h
      exact .switch hpc hrun
    · exact nomatch h
  | resume =>
    rw [Sys.next] at h
    split at h
    · next b hpc =>
      obtain ⟨e, pc, k, hrun, rfl⟩ := Sys.moved_eq_some h
      exact .resume hpc hrun
    · exact nomatch h
  | tick =>
    obtain ⟨k, hrun, rfl⟩ := hunit h
    exact .tick hrun
  | key =>
    obtain ⟨k, hrun, rfl⟩ := hunit h
    exact .key hrun

theorem sysStart_boot {semValue : Nat → Int} (hp : p ≠ 0) (h : Sys.boot semValue p = some s) : SysStart semValue s := by
  rw [Sys.boot] at h
  split at h
  · next k hrun =>
    obtain rfl := Option.some.inj h
    exact ⟨p, hp, hrun, rfl, rfl⟩
  · exact nomatch h

theorem reaches_boot {semValue : Nat → Int} (hp : p ≠ 0) {ls : List Label}
    (h : ((Sys.boot semValue p).bind fun s => ls.foldlM Sys.next s) = some s) :
    Reaches (SysStart semValue) Step (fun _ _ => True) s := by
  obtain ⟨s0, hboot, hrun⟩ := Option.bind_eq_some_iff.mp h
  have h0 : Reaches (SysStart semValue) Step (fun _ _ => True) s0 := .start (sysStart_boot hp hboot)
  clear h hboot
  induction ls generalizing s0 with
  | nil =>
    obtain rfl := Option.some.inj hrun
    exact h0
  | cons l ls ih =>
    rw [List.foldlM_cons] at hrun
    obtain ⟨s1, hs, hrest⟩ := Option.bind_eq_some_iff.mp hrun
    exact ih s1 hrest (h0.next trivial (Sys.step_of_next hs))

/-- What can be computed from the last state of a run. -/
theorem exists_reached {α : Type} {g : Sys → α} {a : α} {semValue : Nat → Int} {ls : List Label} (hp : p ≠ 0)
    (h : ((Sys.boot semValue p).bind fun s => ls.foldlM Sys.next s).map g = some a) :
    ∃ s, Reaches (SysStart semValue) Step (fun _ _ => True) s ∧ g s = a := by
  obtain ⟨s, hs, hg⟩ := Option.map_eq_some_iff.mp h
  exact ⟨s, reaches_boot hp hs, hg⟩

end Ucore
