import Ucore.Process.Correctness.System

/-!
# `Process.Correctness.Runs` — processes over whole runs

The run queue, the relations between the processes, and what passes from `do_exit` to `do_wait`.
-/

namespace Ucore

variable {s s' : Sys} {k k' : Kern} {p q c i : Nat} {e : Event} {pc : Pc} {es : List Event} {code pid : Int}

/-! ## The run queue -/

/-- **The run queue.** At every point outside the scheduler a process is in `run_list` once if it is runnable and neither
    running nor `idleproc`, and not at all otherwise; `proc_num` is the length of the list; and whatever comes next, no
    assertion of the scheduler fails, and `wakeup_proc` is not applied to a zombie. -/
theorem run_queue_reached (h : SysReaches s) :
    (∀ p, s.k.runList.count p =
      if p ∈ s.k.live ∧ (s.k.proc p).state = .runnable ∧ p ≠ s.k.current ∧ p ≠ s.k.idleproc then 1 else 0) ∧
    s.k.procNum = s.k.runList.length ∧
    ∀ x, Stops s x → x ≠ .enqueue ∧ x ≠ .dequeue ∧ x ≠ .wakeupZombie := by
  have hinv := sysReaches_inv h
  have hrun := hinv.kern.run
  refine ⟨fun p => ?_, hrun.num, fun x hx => ?_⟩
  · split
    · next hin => exact List.count_eq_one_of_mem hrun.nodup ((hrun.mem p).mpr hin)
    · next hout => exact List.count_eq_zero_of_not_mem fun hmem => hout ((hrun.mem p).mp hmem)
  · rcases hinv.stops hx with rfl | rfl
    · exact ⟨KernPanic.noConfusion, KernPanic.noConfusion, KernPanic.noConfusion⟩
    · exact ⟨KernPanic.noConfusion, KernPanic.noConfusion, KernPanic.noConfusion⟩

/-- `initproc` has forked a process. -/
theorem run_queue_reached_fork : ∃ s : Sys, s.k.runList = [2] ∧ s.k.procNum = 1 := by
  have hrun : ((Sys.boot (fun _ => 1) 1).bind fun s => [Label.call .yield, .switch, .call (.fork 2)].foldlM Sys.next s).map
    (fun s => s.k.runList) = some [2] := by decide +kernel
  obtain ⟨s, hs, hlist⟩ := exists_reached (by decide) hrun
  refine ⟨s, hlist, ?_⟩
  rw [(run_queue_reached (.of_start (fun _ => Int.one_nonneg) hs)).2.1, hlist]
  rfl

/-! ## The process tree -/

namespace TreeInv

/-- The siblings of a process are there. -/
theorem sibling_live (h : TreeInv none k) (hp : p ∈ k.live) (hc : (k.proc p).optr = some c ∨ (k.proc p).yptr = some c) :
    c ∈ k.live := by
  by_cases hidle : p = k.idleproc
  · rw [hidle, h.idleLinks.2.1, h.idleLinks.2.2] at hc
    rcases hc with hc | hc
    · exact nomatch hc
    · exact nomatch hc
  · obtain ⟨q, hq, hparent⟩ := h.parent p hp hidle
    obtain ⟨y, l, hy, hkids⟩ := h.kids q hq
    obtain rfl := hy fun heq => nomatch heq
    have hmem := (hkids.mem p).mpr ⟨hp, hparent⟩
    rcases hc with hc | hc
    · exact (kids_next hkids hmem hc).1
    · exact (kids_prev hkids hmem hc).1

end TreeInv

/-- **The process tree.** -/
theorem process_tree_reached (h : SysReaches s) :
    (∀ q ∈ s.k.live, ∃ l, Chained (fun p => (s.k.proc p).optr) (fun p => (s.k.proc p).yptr) none (s.k.proc q).cptr l ∧
      l.Nodup ∧ ∀ p, p ∈ l ↔ p ∈ s.k.live ∧ (s.k.proc p).parent = some q) ∧
    (∀ p ∈ s.k.live, p ≠ s.k.idleproc → (∃ q ∈ s.k.live, (s.k.proc p).parent = some q) ∧ s.k.procList.count p = 1 ∧
      (∀ i, (s.k.hashList i).count p = if i = pidHashfn (s.k.proc p).pid then 1 else 0) ∧
      s.k.findProc (s.k.proc p).pid = some p) ∧
    (∀ p ∈ s.k.live, (s.k.proc p).state = .zombie → ∀ c ∈ s.k.live, (s.k.proc c).parent ≠ some p) ∧
    s.k.nrProcess = (s.k.live.erase s.k.idleproc).card + 1 ∧
    ∀ p, p ∉ s.k.live → p ∉ s.k.procList ∧ (∀ i, p ∉ s.k.hashList i) ∧ ∀ q ∈ s.k.live, (s.k.proc q).parent ≠ some p ∧
      (s.k.proc q).cptr ≠ some p ∧ (s.k.proc q).optr ≠ some p ∧ (s.k.proc q).yptr ≠ some p := by
  have ht := (sysReaches_inv h).tree
  refine ⟨fun q hq => ?_, fun p hp hidle => ⟨ht.parent p hp hidle, ?_, fun i => ?_, ?_⟩, fun p hp hz c hc hparent => ?_, ?_,
    fun p hp => ⟨fun hmem => hp ((ht.list p).mp hmem).1, fun i hmem => hp ((ht.hash i p).mp hmem).1, fun q hq => ⟨?_, ?_, ?_, ?_⟩⟩⟩
  · obtain ⟨y, l, hy, hkids⟩ := ht.kids q hq
    obtain rfl := hy fun heq => nomatch heq
    exact ⟨l, hkids.chained, hkids.nodup, hkids.mem⟩
  · exact List.count_eq_one_of_mem ht.listNodup ((ht.list p).mpr ⟨hp, hidle⟩)
  · split
    · next hi => exact List.count_eq_one_of_mem (ht.hashNodup i) ((ht.hash i p).mpr ⟨hp, hidle, hi.symm⟩)
    · next hi => exact List.count_eq_zero_of_not_mem fun hmem => hi ((ht.hash i p).mp hmem).2.2.symm
  · exact ht.findProc_eq_some.mpr ⟨hp, hidle, rfl⟩
  · exact ht.zombie p hp (fun heq => nomatch heq) hz c ⟨hc, hparent⟩
  · rw [Finset.card_erase_of_mem ht.idle, ht.num]
    have hpos := Finset.card_pos.mpr ⟨_, ht.idle⟩
    omega
  · intro heq
    by_cases hidle : q = s.k.idleproc
    · rw [hidle, ht.idleLinks.1] at heq
      exact nomatch heq
    · obtain ⟨r, hr, hparent⟩ := ht.parent q hq hidle
      exact hp (Option.some.inj (heq.symm.trans hparent) ▸ hr)
  · intro heq
    obtain ⟨y, l, -, hkids⟩ := ht.kids q hq
    exact hp (TreeInv.kids_head hkids heq).1
  · exact fun heq => hp (ht.sibling_live hq (.inl heq))
  · exact fun heq => hp (ht.sibling_live hq (.inr heq))

/-- `initproc` has forked a process, and that another one before it exited. -/
theorem process_tree_reached_exit : ∃ s : Sys, s.k.live = {0, 1, 2, 3} ∧ s.k.nrProcess = 4 := by
  have hrun : ((Sys.boot (fun _ => 1) 1).bind fun s => [Label.call .yield, .switch, .call (.fork 2), .call .yield, .switch,
    .call (.fork 3), .call (.exit 0)].foldlM Sys.next s).map (fun s => s.k.live) = some {0, 1, 2, 3} := by decide +kernel
  obtain ⟨s, hs, hlive⟩ := exists_reached (by decide) hrun
  replace hs := SysReaches.of_start (fun _ => Int.one_nonneg) hs
  have hidle : s.k.idleproc ∈ s.k.live := (sysReaches_inv hs).tree.idle
  refine ⟨s, hlive, ?_⟩
  rw [(process_tree_reached hs).2.2.2.1, Finset.card_erase_of_mem hidle, hlive]
  rfl

/-! ## From `do_exit` to `do_wait` -/

/-- The event is about the life of `c`. -/
def Event.About (c : Nat) : Event → Prop
  | .fork p               => p = c
  | .exit p _             => p = c
  | .reported _ _ child _ => child = c
  | _                     => False

/-- The last event about `c` is its exit with `code`. -/
def Gone (c : Nat) (code : Int) (es : List Event) : Prop :=
  ∃ mid old, es = mid ++ .exit c code :: old ∧ ∀ e ∈ mid, ¬ e.About c

theorem Gone.now (c : Nat) (code : Int) (es : List Event) : Gone c code (.exit c code :: es) :=
  ⟨[], es, rfl, fun _ hmem => absurd hmem List.not_mem_nil⟩

theorem Gone.cons (h : Gone c code es) (he : ¬ e.About c) : Gone c code (e :: es) := by
  obtain ⟨mid, old, rfl, hmid⟩ := h
  refine ⟨e :: mid, old, rfl, fun e' hmem => ?_⟩
  rcases List.mem_cons.mp hmem with rfl | hmem
  · exact he
  · exact hmid e' hmem

/-- None of the children that `q` asks for is a zombie. -/
def NoZombie (k : Kern) (q : Nat) (pid : Int) : Prop :=
  ∀ c, k.IsChild q c → (pid ≠ 0 → (k.proc c).pid = pid) → (k.proc c).state ≠ .zombie

theorem NoZombie.of_tree (h : NoZombie k q pid) (hs : SameTree k k') : NoZombie k' q pid := by
  intro c hchild hpid hz
  rw [Kern.IsChild, hs.live, hs.parent] at hchild
  rw [hs.pid] at hpid
  exact h c hchild hpid ((hs.zombie c).mp hz)

namespace Effect

/-- A zombie has just exited, or it was one already and nothing was said about it. -/
theorem zombie (h : Effect s e pc k') (hinv : SysInv s) (hc : c ∈ k'.live) (hz : (k'.proc c).state = .zombie) :
    e = .exit c (k'.proc c).exitCode ∨
    (c ∈ s.k.live ∧ (s.k.proc c).state = .zombie ∧ (k'.proc c).exitCode = (s.k.proc c).exitCode ∧ ¬ e.About c) := by
  have hsame : SameTree s.k k' → ¬ e.About c →
      c ∈ s.k.live ∧ (s.k.proc c).state = .zombie ∧ (k'.proc c).exitCode = (s.k.proc c).exitCode ∧ ¬ e.About c :=
    fun hs he => ⟨hs.live ▸ hc, (hs.zombie c).mp hz, hs.exitCode c, he⟩
  cases h with
  | quiet family sems hpc => exact .inr (hsame family.toSameTree id)
  | up i => exact .inr (hsame (hinv.kern.sameFamily_upped i).toSameTree id)
  | took hpos => exact .inr (hsame (SysInv.sameFamily_setSem _ _ _).toSameTree id)
  | queued hzero hawake => exact .inr (hsame (SameFamily.blockedOn hawake.1 _ (by decide)).toSameTree id)
  | fork hp hf hrest =>
    next p v =>
    have hcp : c ≠ p := by
      rintro rfl
      exact hf.newState hz
    rw [hf.live] at hc
    exact .inr ⟨Finset.mem_of_mem_insert_of_ne hc hcp, (hf.state c hcp).mp hz, hrest.exitCode c hcp, fun heq => hcp heq.symm⟩
  | exit hawake hexited =>
    by_cases hcur : c = s.k.current
    · left
      rw [hcur, hexited.newCode]
    · rw [hexited.live] at hc
      exact .inr ⟨hc, (hexited.zombie c hcur).mp hz, hexited.exitCode c hcur, fun heq => hcur heq.symm⟩
  | wait hrest hlook => exact .inr (hsame hrest.tree id)
  | reap hawake hr hrest hlook =>
    rw [hr.live, Finset.mem_erase] at hc
    exact .inr ⟨hc.2, (hr.state c).mp hz, hrest.exitCode c, fun heq => hc.1 heq.symm⟩

/-- **A process that sleeps for a child** slept already, with nothing missed, or has just seen that there is no zombie. -/
theorem noZombie (h : Effect s e pc k') (hinv : SysInv s)
    (hold : Asleep s.k q wtChild → s.blocked q = some (.wait pid) → NoZombie s.k q pid)
    (hasleep : Asleep k' q wtChild) (hblocked : (s.move k' e pc).blocked q = some (.wait pid)) : NoZombie k' q pid := by
  have hmove : (s.move k' e pc).blocked q = (if q = s.k.current then pc else if e = .fork q then .run else s.pc q).blocked := rfl
  rw [hmove] at hblocked
  -- a process that was awake does not wait now, unless this was its step
  have hkept : q ≠ s.k.current → Asleep s.k q wtChild → e ≠ .fork q → NoZombie s.k q pid := by
    intro hq ha he
    rw [if_neg hq, if_neg he] at hblocked
    exact hold ha hblocked
  have hother : (∀ pid, pc.blocked ≠ some (.wait pid)) → q ≠ s.k.current := by
    intro hpc hq
    rw [if_pos hq] at hblocked
    exact hpc _ hblocked
  have hsteady : SameFamily s.k k' → (∀ pid, pc.blocked ≠ some (.wait pid)) → e ≠ .fork q → NoZombie k' q pid :=
    fun hs hpc he => (hkept (hother hpc) (hs.waiting q hasleep) he).of_tree hs.toSameTree
  cases h with
  | quiet family sems hpc =>
    refine NoZombie.of_tree ?_ family.toSameTree
    have ha := family.waiting q hasleep
    by_cases hq : q = s.k.current
    · rw [if_pos hq] at hblocked
      rcases hpc with ⟨hawake, -⟩ | hsame
      · exact nomatch (hq ▸ ha).1.symm.trans hawake.1
      · exact hold ha (hq ▸ hsame.symm.trans hblocked)
    · exact hkept hq ha fun he => nomatch he
  | up i => exact hsteady (hinv.kern.sameFamily_upped i) (fun _ he => nomatch he) fun he => nomatch he
  | @took i hpos => exact hsteady (SysInv.sameFamily_setSem s.k i _) (fun _ he => nomatch he) fun he => nomatch he
  | @queued i hzero hawake =>
    exact hsteady (.blockedOn hawake.1 (.sem i) (by decide)) (fun _ he => nomatch he) fun he => nomatch he
  | fork hp hf hrest =>
    next p v =>
    obtain ⟨hqp, ha⟩ := hrest.waiting q hasleep
    have hno := hkept (hother fun _ he => nomatch he) ha fun he => hqp (Event.fork.inj he).symm
    rintro c ⟨hlive, hparent⟩ hpid hz
    have hcp : c ≠ p := by
      rintro rfl
      exact hf.newState hz
    rw [hf.live] at hlive
    rw [hf.parent c hcp] at hparent
    rw [hf.pid c hcp] at hpid
    exact hno c ⟨Finset.mem_of_mem_insert_of_ne hlive hcp, hparent⟩ hpid ((hf.state c hcp).mp hz)
  | exit hawake hexited =>
    obtain ⟨hq, ha, hnotparent, hinit⟩ := hexited.waiting q hasleep
    have hno := hkept hq ha fun he => nomatch he
    rintro c ⟨hlive, hparent⟩ hpid hz
    rw [hexited.live] at hlive
    rw [hexited.parent c hlive] at hparent
    rw [hexited.pid] at hpid
    by_cases hmine : (s.k.proc c).parent = some s.k.current
    · -- one of the children that `initproc` has just been given
      rw [if_pos hmine] at hparent
      obtain ⟨hcur, hnz⟩ := hinit (Option.some.inj hparent).symm c ⟨hlive, hmine⟩
      exact hnz ((hexited.zombie c hcur).mp hz)
    · rw [if_neg hmine] at hparent
      have hcur : c ≠ s.k.current := by
        rintro rfl
        exact hnotparent hparent
      exact hno c ⟨hlive, hparent⟩ hpid ((hexited.zombie c hcur).mp hz)
  | wait hrest hlook =>
    refine NoZombie.of_tree ?_ hrest.tree
    by_cases hq : q = s.k.current
    · rw [if_pos hq] at hblocked
      obtain rfl := Blocked.wait.inj (Option.some.inj hblocked)
      rw [hq]
      exact hlook
    · exact hkept hq ((hrest.waiting q hasleep).resolve_left hq) fun he => nomatch he
  | reap hawake hr hrest hlook =>
    have hno := hkept (hother fun _ he => nomatch he) (hrest.waiting q hasleep) fun he => nomatch he
    rintro c ⟨hlive, hparent⟩ hpid hz
    rw [hr.live, Finset.mem_erase] at hlive
    rw [hr.parent] at hparent
    rw [hr.pid] at hpid
    exact hno c ⟨hlive.2, hparent⟩ hpid ((hr.state c).mp hz)

/-- **A child is reported** to its parent while it is a zombie, with what it exited with. -/
theorem reported {caller : Nat} (h : Effect s (.reported caller pid c code) pc k') : caller = s.k.current ∧
    s.k.IsChild caller c ∧ (s.k.proc c).state = .zombie ∧ (pid ≠ 0 → (s.k.proc c).pid = pid) ∧ code = (s.k.proc c).exitCode := by
  cases h with
  | reap hawake hr hrest hlook => exact ⟨rfl, hlook.1, hlook.2.1, hlook.2.2, rfl⟩

end Effect

/-- What the history says about the zombies, and about the children that were reported. -/
structure HistoryInv (s : Sys) : Prop where
  zombie : ∀ c ∈ s.k.live, (s.k.proc c).state = .zombie → Gone c (s.k.proc c).exitCode s.events
  reported : ∀ later caller pid c code earlier, s.events = later ++ .reported caller pid c code :: earlier → Gone c code earlier
  waiting : ∀ q pid, Asleep s.k q wtChild → s.blocked q = some (.wait pid) → NoZombie s.k q pid

theorem historyInv_reached (h : SysReaches s) : HistoryInv s := by
  refine sysReaches_effect (fun s h0 => ?_) (fun s e pc k' hI hinv hmoved => ?_) h
  · have hinv := sysInv_init h0
    obtain ⟨semValue, -, p, -, -, hpc, hevents⟩ := h0
    have hblocked : ∀ q, s.blocked q = none := by
      intro q
      rw [Sys.blocked, hpc]
      rfl
    refine ⟨fun c hc hz => ?_, fun later caller pid c code earlier heq => ?_, fun q pid _ hb => ?_⟩
    · cases (hblocked c).symm.trans ((hinv.kern.waits c hc).zombie.mp hz)
    · cases (List.append_eq_nil_iff.mp (heq.symm.trans hevents)).2
    · cases (hblocked q).symm.trans hb
  · refine ⟨fun c hc hz => ?_, fun later caller pid c code earlier heq => ?_, fun q pid ha hb => ?_⟩
    · show Gone c (k'.proc c).exitCode (e :: s.events)
      rcases hmoved.effect.zombie hinv hc hz with rfl | ⟨hlive, hz', hcode, he⟩
      · exact .now c _ _
      · rw [hcode]
        exact (hI.zombie c hlive hz').cons he
    · replace heq : e :: s.events = later ++ .reported caller pid c code :: earlier := heq
      cases later with
      | nil =>
        obtain ⟨rfl, rfl⟩ := List.cons.inj heq
        obtain ⟨-, hchild, hz, -, rfl⟩ := hmoved.effect.reported
        exact hI.zombie c hchild.1 hz
      | cons e' later =>
        exact hI.reported later caller pid c code earlier (List.cons.inj heq).2
    · exact hmoved.effect.noZombie hinv (hI.waiting q pid) ha hb

end Ucore
