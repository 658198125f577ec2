import Ucore.Sync.Correctness.Sem

/-!
# `Process.Correctness.Interrupts` — the timer, the keyboard, and those who wait for them

`do_sleep` and `dev_stdin_read` with the interrupts that wake their processes. None of it touches the relations between
processes or the semaphores (`Quiet`).
-/

namespace Ucore

variable {k k' : Kern} {b : Nat → Option Blocked} {p left : Nat} {t : Timer} {ts rest : List Timer}

/-! ## The list of timers -/

/-- What stays the same of a timer when deadlines are moved around. -/
def timerKeys (ts : List Timer) : List (Nat × Nat) := ts.map fun t => (t.link, t.proc)

theorem links_eq_keys (ts : List Timer) : timerLinks ts = (timerKeys ts).map Prod.fst := by
  rw [timerLinks, timerKeys, List.map_map]
  rfl

theorem mem_keys : (p, left) ∈ timerKeys ts ↔ ∃ t ∈ ts, t.link = p ∧ t.proc = left := by
  simp only [timerKeys, List.mem_map, Prod.mk.injEq]

theorem timerRemove_keys (link : Nat) : ∀ ts : List Timer, (timerKeys (timerRemove link ts)).Sublist (timerKeys ts)
  | []        => List.Sublist.slnil
  | t :: rest => by
    rw [timerRemove.eq_def]
    dsimp only
    split
    · cases rest with
      | nil => exact List.nil_sublist _
      | cons next rest =>
        dsimp only
        split
        · exact List.sublist_cons_self _ _
        · exact List.sublist_cons_self _ _
    · exact (timerRemove_keys link rest).cons_cons _

theorem timerInsert_keys (timer : Timer) : ∀ ts : List Timer,
    (timerKeys (timerInsert timer ts)).Perm ((timer.link, timer.proc) :: timerKeys ts)
  | []           => List.Perm.refl _
  | next :: rest => by
    rw [timerInsert]
    split
    · exact List.Perm.refl _
    · exact ((timerInsert_keys { timer with expires := timer.expires - next.expires } rest).cons _).trans
        (List.Perm.swap _ _ _)

/-- A timer that is taken out is no longer there. -/
theorem timerRemove_links (link : Nat) : ∀ {ts : List Timer}, (timerLinks ts).Nodup → link ∉ timerLinks (timerRemove link ts)
  | [], _             => List.not_mem_nil
  | t :: rest, hnodup => by
    obtain ⟨hnot, hnodup⟩ := List.nodup_cons.mp hnodup
    rw [timerRemove.eq_def]
    dsimp only
    split
    · next hlink =>
      rw [hlink] at hnot
      cases rest with
      | nil => exact List.not_mem_nil
      | cons next rest =>
        dsimp only
        split
        · exact hnot
        · exact hnot
    · next hlink =>
      intro hmem
      rcases List.mem_cons.mp hmem with heq | hmem
      · exact hlink heq.symm
      · exact timerRemove_links link hnodup hmem

theorem ticked_keys (ts : List Timer) : timerKeys (ticked ts) = timerKeys ts := by
  cases ts with
  | nil => rfl
  | cons t rest => rfl

namespace KernInv

/-- The timers keep their conditions as long as there are no new ones. -/
theorem setTimers_of_keys (h : KernInv k b) (hsub : (timerKeys ts).Sublist (timerKeys k.timerList)) :
    KernInv (k.setTimers ts) b := by
  refine h.setTimers (fun t hmem => ?_) ?_
  · have hkey : (t.link, t.proc) ∈ timerKeys k.timerList := hsub.subset (List.mem_map_of_mem hmem)
    obtain ⟨t', hmem', hlink, hproc⟩ := mem_keys.mp hkey
    have htimer := h.queue.timer t' hmem'
    rw [hlink, hproc] at htimer
    exact htimer
  · rw [links_eq_keys]
    have hlinks := h.queue.links
    rw [links_eq_keys] at hlinks
    exact (hsub.map Prod.fst).nodup hlinks

/-- The process of a timer can be woken. -/
theorem wakeable (h : KernInv k b) (hmem : t ∈ k.timerList) : k.Wakeable t.proc := by
  obtain ⟨hlive, -, hb⟩ := h.queue.timer t hmem
  have hw := h.waits _ hlive
  refine ⟨fun hz => ?_, h.run.runnable, fun hne => ?_⟩
  · exact nomatch hb.symm.trans (hw.zombie.mp hz)
  · rw [hb] at hw
    rcases hw with hasleep | hawake
    · exact (congrArg interruptible hasleep.2).trans (by decide)
    · exact absurd hawake.2 hne

/-- A sleeping process is woken. -/
theorem woke_sleeper (h : KernInv k b) (hmem : t ∈ k.timerList) : KernInv (k.woke t.proc) b := by
  obtain ⟨hlive, -, hb⟩ := h.queue.timer t hmem
  exact h.woke hlive (fun i he => nomatch hb.symm.trans he) fun he => nomatch hb.symm.trans he

end KernInv

theorem Quiet.setTimers (k : Kern) (ts : List Timer) : Quiet k (k.setTimers ts) :=
  ⟨.of_proc rfl rfl rfl rfl rfl rfl rfl rfl rfl, ⟨rfl, fun _ => rfl⟩, rfl⟩

/-! ## `run_timer_list` -/

theorem expireLoop_quiet : ∀ (ts : List Timer) (k : Kern), KernInv k b → k.timerList = ts →
    ∃ k', expireLoop ts k = .ok () k' ∧ KernInv k' b ∧ Quiet k k'
  | [], k, h, _            => ⟨k, rfl, h, .refl k⟩
  | t :: rest, k, h, hlist => by
    have hmem : t ∈ k.timerList := by
      rw [hlist]
      exact List.mem_cons_self
    by_cases hzero : t.expires = 0
    · rcases expireLoop_round hzero hlist with hround | ⟨e, -, -, hnot⟩
      · have hwoke : KernInv (k.woke t.proc) b := h.woke_sleeper hmem
        have hsub : (timerKeys rest).Sublist (timerKeys (k.woke t.proc).timerList) := by
          rw [Kern.woke_timerList, hlist]
          exact List.sublist_cons_self _ _
        obtain ⟨k', hrun, hinv, hquiet⟩ := expireLoop_quiet rest ((k.woke t.proc).setTimers rest)
          (hwoke.setTimers_of_keys hsub) rfl
        refine ⟨k', hround.trans hrun, hinv, ?_⟩
        exact ((Quiet.woke (h.wakeable hmem).alive).trans (.setTimers _ rest)).trans hquiet
      · exact absurd (h.wakeable hmem) hnot
    · refine ⟨k, ?_, h, .refl k⟩
      rw [expireLoop, if_neg hzero]
      rfl

theorem procTick_quiet (h : KernInv k b) : ∃ k', schedClassProcTick k.current k = .ok () k' ∧ KernInv k' b ∧ Quiet k k' := by
  have hquiet : ∀ f : ProcStruct → ProcStruct, (∀ x, f x = { x with timeSlice := (f x).timeSlice, needResched := (f x).needResched }) →
      KernInv (k.modProc k.current f) b ∧ Quiet k (k.modProc k.current f) := by
    intro f hf
    have hsame : SameSched k (k.modProc k.current f) :=
      .modProc (fun x => by rw [hf x]) (fun x => by rw [hf x]) (fun x => by rw [hf x]) k _
    have hresched : Kern.Rescheduled k (k.modProc k.current f) := .modProc (fun x => by rw [hf x]) k _
    refine ⟨h.congr hsame, .of_rescheduled hresched (fun p => by rw [hsame.state]) fun p ha => ?_, .of_rescheduled hresched, rfl⟩
    exact ⟨(hsame.state p).symm.trans ha.1, (hsame.waitState p).symm.trans ha.2⟩
  rw [schedClassProcTick, Proc.get_bind]
  split
  · exact ⟨_, rfl, hquiet _ fun _ => rfl⟩
  · exact ⟨_, rfl, hquiet _ fun _ => rfl⟩

/-- **A tick**, if the head of the list has ticks left. -/
theorem runTimerList_quiet (h : KernInv k b) : runTimerList k = .panic .timerHead ∨
    ∃ k', runTimerList k = .ok () k' ∧ KernInv k' b ∧ Quiet k k' := by
  cases hlist : k.timerList with
  | nil =>
    obtain ⟨k', hrun, hinv, hquiet⟩ := procTick_quiet h
    refine .inr ⟨k', ?_, hinv, hquiet⟩
    rw [runTimerList, Proc.get_bind, hlist]
    exact hrun
  | cons t rest =>
    by_cases ht : t.expires = 0
    · refine .inl ?_
      rw [runTimerList, Proc.get_bind, hlist]
      exact Proc.check_bind_neg (not_not_intro ht) _ _
    · have hkeys : (timerKeys (ticked k.timerList)).Sublist (timerKeys k.timerList) := by
        rw [ticked_keys]
      obtain ⟨k1, hrun1, hinv1, hquiet1⟩ := expireLoop_quiet (ticked k.timerList) (k.setTimers (ticked k.timerList))
        (h.setTimers_of_keys hkeys) rfl
      obtain ⟨k', hrun, hinv, hquiet⟩ := procTick_quiet hinv1
      refine .inr ⟨k', ?_, hinv, ((Quiet.setTimers k _).trans hquiet1).trans hquiet⟩
      rw [runTimerList_cons hlist ht, Proc.bind_ok hrun1]
      exact hrun

/-! ## `do_sleep` -/

/-- **`do_sleep`** up to its `schedule`. -/
theorem doSleep_quiet (h : KernInv k b) (hb : b k.current = none) (hidle : k.current ≠ k.idleproc) (time : Nat) :
    (doSleep time k = .ok true k) ∨
    ∃ k', doSleep time k = .ok false k' ∧ KernInv k' (Function.update b k.current (some .sleep)) ∧ Quiet k k' := by
  have hfree := h.free_of_none hb
  have hawake := h.waits _ h.run.current
  rw [hb] at hawake
  by_cases htime : time = 0
  · refine .inl ?_
    rw [doSleep, if_pos htime]
    rfl
  · let f : ProcStruct → ProcStruct := fun x => { x with state := .sleeping, waitState := wtTimer }
    let timer : Timer := { link := k.current, proc := k.current, expires := time }
    have hself : (k.modProc k.current f).proc k.current = f (k.proc k.current) := Kern.modProc_self k k.current f
    have hasleep : Asleep (k.modProc k.current f) k.current wtTimer := by
      rw [Asleep, hself]
      exact ⟨rfl, rfl⟩
    have hsettled : KernInv (k.modProc k.current f) (Function.update b k.current (some .sleep)) :=
      h.settle hfree (fun _ he => ProcState.noConfusion he) (.inl hasleep) hidle fun he => by cases he
    have hout : timerQueued k.current k.timerList = false := by
      refine Bool.eq_false_iff.mpr fun hin => ?_
      obtain ⟨t, hmem, hlink⟩ := List.mem_map.mp (timerQueued_iff.mp hin)
      exact hfree.timer t hmem ((h.queue.timer t hmem).2.1.symm.trans hlink)
    have hadd : addTimer timer (k.modProc k.current f) =
        .ok () ((k.modProc k.current f).setTimers (timerInsert timer k.timerList)) :=
      addTimer_run (Nat.pos_of_ne_zero htime) hout
    refine .inr ⟨(k.modProc k.current f).setTimers (timerInsert timer k.timerList), ?_, ?_, ?_⟩
    · rw [doSleep, if_neg htime, Proc.get_bind, Proc.put_bind, Proc.bind_ok hadd]
      rfl
    · have hkeys := timerInsert_keys timer k.timerList
      refine hsettled.setTimers (fun t hmem => ?_) ?_
      · have hkey := hkeys.mem_iff.mp (List.mem_map_of_mem hmem)
        rcases List.mem_cons.mp hkey with heq | hkey
        · -- the new timer
          obtain ⟨hlink, hproc⟩ := Prod.mk.inj heq
          rw [hproc, hlink]
          exact ⟨h.run.current, rfl, Function.update_self _ _ _⟩
        · obtain ⟨t', hmem', hlink, hproc⟩ := mem_keys.mp hkey
          rw [← hlink, ← hproc]
          exact hsettled.queue.timer t' hmem'
      · rw [links_eq_keys, (hkeys.map Prod.fst).nodup_iff, List.map_cons, List.nodup_cons, ← links_eq_keys]
        refine ⟨fun hin => ?_, h.queue.links⟩
        rw [timerQueued_iff.mpr hin] at hout
        exact Bool.noConfusion hout
    · have hmod : Quiet k (k.modProc k.current f) :=
        ⟨.asleep hawake.1 (by decide), .of_rescheduled (.modProc (fun _ => rfl) k _), rfl⟩
      exact hmod.trans (.setTimers _ _)

/-- **`do_sleep`** behind its `schedule`. -/
theorem delTimer_quiet (h : KernInv k b) (hb : b k.current = some .sleep) (hawake : Awake k k.current)
    (hidle : k.current ≠ k.idleproc) : ∃ k', delTimer k.current k = .ok () k' ∧
    KernInv k' (Function.update b k.current none) ∧ Quiet k k' := by
  let ts := timerRemove k.current k.timerList
  have hkeys : (timerKeys ts).Sublist (timerKeys k.timerList) := timerRemove_keys k.current k.timerList
  have hinv : KernInv (k.setTimers ts) b := h.setTimers_of_keys hkeys
  have hfree : KernInv.Free (k.setTimers ts) := by
    refine ⟨fun q hmem => ?_, fun t hmem heq => ?_⟩
    · have hof : q.Of (b k.current) := (h.queue.mem q _ hmem).2.1
      rw [hb] at hof
      match q, hof with
      | .sem _, hof => exact nomatch hof
      | .stdin, ⟨_, hof⟩ => exact nomatch hof
    · have hlink : t.link = k.current := (hinv.queue.timer t hmem).2.1.trans heq
      have hin : t.link ∈ timerLinks ts := List.mem_map_of_mem hmem
      rw [hlink] at hin
      exact timerRemove_links k.current h.queue.links hin
  exact ⟨k.setTimers ts, rfl, hinv.relabel hfree hawake (fun he => absurd he hidle) (fun he => nomatch he),
    .setTimers k ts⟩

/-! ## The keyboard -/

theorem wakeupQueueLoop_quiet (flags : Nat) : ∀ (fuel : Nat) (k : Kern), KernInv k b →
    (k.waitQueue .stdin).length < fuel →
    ∃ k', wakeupQueueLoop .stdin flags fuel k = .ok () k' ∧ KernInv k' b ∧ Quiet k k'
  | 0, _, _, hfuel        => absurd hfuel (Nat.not_lt_zero _)
  | fuel + 1, k, h, hfuel => by
    rw [wakeupQueueLoop, Proc.get_bind]
    cases hlist : k.waitQueue .stdin with
    | nil => exact ⟨k, rfl, h, .refl k⟩
    | cons p rest =>
      have hmem : p ∈ k.waitQueue .stdin := by
        rw [hlist]
        exact List.mem_cons_self
      have hwake := h.wakeupWait_run hmem flags
      have hqueue : (k.released .stdin p flags).waitQueue .stdin = rest := by
        rw [Kern.released, (Kern.Rescheduled.woke _ p).waitQueue, Kern.unqueued_queue, hlist, List.erase_cons_head]
      have hinv : KernInv (k.released .stdin p flags) b := h.released hmem fun _ he => nomatch he
      rw [hlist, List.length_cons] at hfuel
      obtain ⟨k', hrun, hinv', hquiet⟩ := wakeupQueueLoop_quiet flags fuel _ hinv (by rw [hqueue]; omega)
      refine ⟨k', ?_, hinv', Quiet.trans ⟨.released (h.queued_alive hmem) _ _, .released k p flags, Kern.woke_current⟩ hquiet⟩
      show (wakeupWait .stdin p flags >>= fun _ => wakeupQueueLoop .stdin flags fuel) k = _
      rw [Proc.bind_ok hwake]
      exact hrun

/-- **A character** from the keyboard. -/
theorem devStdinWrite_quiet (h : KernInv k b) : ∃ k', devStdinWrite k = .ok () k' ∧ KernInv k' b ∧ Quiet k k' := by
  let k1 := if k.wpos - k.rpos < stdinBufsize then { k with wpos := k.wpos + 1 } else k
  have hsame : SameSched k k1 ∧ Quiet k k1 := by
    show SameSched k (ite _ _ _) ∧ Quiet k (ite _ _ _)
    split
    · exact ⟨⟨fun _ => rfl, fun _ => rfl, fun _ => rfl, rfl, rfl, rfl, rfl, rfl, rfl, rfl, rfl, rfl, rfl⟩,
        .of_proc rfl rfl rfl rfl rfl rfl rfl rfl rfl, ⟨rfl, fun _ => rfl⟩, rfl⟩
    · exact ⟨.refl k, .refl k⟩
  have h1 : KernInv k1 b := h.congr hsame.1
  rw [devStdinWrite, Proc.modify_bind, Proc.get_bind]
  show ∃ k', (if k1.waitQueue .stdin ≠ [] then wakeupQueue .stdin wtKbd else pure () : KernM Unit) k1 = .ok () k' ∧ _
  split
  · obtain ⟨k', hrun, hinv, hquiet⟩ := wakeupQueueLoop_quiet wtKbd _ k1 h1 (Nat.lt_succ_self _)
    exact ⟨k', hrun, hinv, hsame.2.trans hquiet⟩
  · exact ⟨k1, rfl, h1, hsame.2⟩

/-- What `dev_stdin_read` does: it ends, or goes to sleep with characters left to read. -/
theorem devStdinRead_quiet : ∀ (len : Nat) (k : Kern), KernInv k b → b k.current = none → k.current ≠ k.idleproc →
    ∃ r k', devStdinRead len k = .ok r k' ∧ KernInv k' (Function.update b k.current (r.map .read)) ∧ Quiet k k'
  | 0, k, h, hb, _            => by
    refine ⟨none, k, rfl, ?_, .refl k⟩
    rw [Option.map_none, ← hb, Function.update_eq_self]
    exact h
  | len + 1, k, h, hb, hidle => by
    rw [devStdinRead, Proc.get_bind]
    by_cases hpos : k.rpos < k.wpos
    · rw [if_pos hpos, Proc.put_bind]
      have hsame : SameSched k { k with rpos := k.rpos + 1 } :=
        ⟨fun _ => rfl, fun _ => rfl, fun _ => rfl, rfl, rfl, rfl, rfl, rfl, rfl, rfl, rfl, rfl, rfl⟩
      have hquiet1 : Quiet k { k with rpos := k.rpos + 1 } :=
        ⟨.of_proc rfl rfl rfl rfl rfl rfl rfl rfl rfl, ⟨rfl, fun _ => rfl⟩, rfl⟩
      obtain ⟨r, k', hrun, hinv, hquiet⟩ := devStdinRead_quiet len _ (h.congr hsame) hb hidle
      exact ⟨r, k', hrun, hinv, hquiet1.trans hquiet⟩
    · have hfree := h.free_of_none hb
      have hawake := h.waits _ h.run.current
      rw [hb] at hawake
      rw [if_neg hpos, Proc.bind_ok (KernInv.waitCurrentSet_run hfree .stdin wtKbd)]
      refine ⟨some (len + 1), _, rfl, ?_, .blockedOn hawake.1 _ (by decide), ⟨rfl, fun i => ?_⟩, rfl⟩
      · exact h.blockedOn hfree hidle ⟨len + 1, rfl⟩ (fun _ he => nomatch he) (fun _ he => nomatch he) fun _ => rfl
      · exact Kern.setQueue_other _ _ QueueId.noConfusion

namespace KernInv

/-- A process that reads leaves the queue of the keyboard. -/
theorem dequeued (h : KernInv k b) (hb : b k.current = some (.read left)) (hawake : Awake k k.current) :
    ∃ k', waitCurrentDel .stdin k = .ok () k' ∧ KernInv k' b ∧ Quiet k k' ∧ Awake k' k'.current ∧
      k'.current ∉ k'.waitQueue .stdin := by
  rw [waitCurrentDel, Proc.get_bind]
  have hstdin : ∀ q, k.current ∈ k.waitQueue q → q = .stdin := by
    intro q hmem
    have hof := (h.queue.mem q _ hmem).2.1
    rw [hb] at hof
    cases q with
    | sem _ => cases hof
    | stdin => rfl
  by_cases hmem : k.current ∈ k.waitQueue (k.wait k.current).waitQueue
  · have hq := hstdin _ hmem
    rw [hq] at hmem
    let k1 := k.setQueue .stdin ((k.waitQueue .stdin).erase k.current)
    have hk1 : k.unqueued .stdin k.current (k.wait k.current).wakeupFlags = k1 := by
      show { k1 with wait := Function.update k.wait k.current (k.wait k.current) } = k1
      rw [Function.update_eq_self]
      rfl
    have hdel : waitQueueDel .stdin k.current k = .ok () k1 := by
      rw [waitQueueDel, Proc.get_bind, Proc.check_bind_pos ⟨hmem, hq⟩]
      rfl
    have hrun : RunInv k1 := h.run.congr (fun _ => rfl) (fun _ => rfl) rfl rfl rfl rfl rfl
    have hqueue : QueueInv k1 b := hk1 ▸ h.queue.unqueued .stdin k.current (k.wait k.current).wakeupFlags
    refine ⟨k1, ?_, ⟨hrun, hqueue, fun p hlive => ?_, h.idle, h.init⟩, ⟨.of_proc rfl rfl rfl rfl rfl rfl rfl rfl rfl,
      ⟨rfl, fun i => ?_⟩, rfl⟩, hawake, ?_⟩
    · rw [hq, if_pos hmem]
      exact hdel
    · refine (h.waits p hlive).congr rfl rfl rfl fun i => ?_
      rw [show k1.waitQueue (.sem i) = k.waitQueue (.sem i) from Kern.setQueue_other k _ QueueId.noConfusion]
    · exact Kern.setQueue_other k _ QueueId.noConfusion
    · have hnot := h.queue.not_mem_unqueued .stdin k.current (k.wait k.current).wakeupFlags
      rw [hk1] at hnot
      exact hnot
  · rw [if_neg hmem]
    refine ⟨k, rfl, h, .refl k, hawake, fun hin => hmem ?_⟩
    rw [(h.queue.mem .stdin _ hin).2.2]
    exact hin

end KernInv

/-- **`dev_stdin_read`** behind its `schedule`. -/
theorem devStdinResume_quiet (h : KernInv k b) (hb : b k.current = some (.read left)) (hawake : Awake k k.current)
    (hidle : k.current ≠ k.idleproc) : ∃ r k', devStdinResume left k = .ok r k' ∧
    KernInv k' (Function.update b k.current (r.map .read)) ∧ Quiet k k' := by
  obtain ⟨k1, hrun1, h1, hquiet1, hawake1, hout⟩ := h.dequeued hb hawake
  have hcur := hquiet1.current
  have hb1 : b k1.current = some (.read left) := by rw [hcur, hb]
  have hidle1 : k1.current ≠ k1.idleproc := by rw [hcur, hquiet1.family.idleproc]; exact hidle
  have hfree : KernInv.Free k1 := by
    refine ⟨fun q hmem => ?_, fun t hmem heq => ?_⟩
    · have hof := (h1.queue.mem q _ hmem).2.1
      rw [hb1] at hof
      match q, hof with
      | .sem _, hof => exact nomatch hof
      | .stdin, _ => exact hout hmem
    · have hsleep := (h1.queue.timer t hmem).2.2
      rw [heq, hb1] at hsleep
      exact nomatch hsleep
  have hnone : KernInv k1 (Function.update b k1.current none) :=
    h1.relabel hfree hawake1 (fun he => absurd he hidle1) fun he => nomatch he
  rw [devStdinResume, Proc.bind_ok hrun1, Proc.get_bind]
  by_cases hflags : (k1.wait k1.current).wakeupFlags = wtKbd
  · obtain ⟨r, k', hrun, hinv, hquiet⟩ := devStdinRead_quiet left k1 hnone (Function.update_self _ _ _) hidle1
    rw [Function.update_idem, hcur] at hinv
    refine ⟨r, k', ?_, hinv, hquiet1.trans hquiet⟩
    rw [if_pos hflags]
    exact hrun
  · rw [if_neg hflags]
    refine ⟨none, k1, rfl, ?_, hquiet1⟩
    rw [hcur] at hnone
    exact hnone

/-! ## Who can run -/

/-- Whoever could run still can. -/
def StillRunnable (k k' : Kern) : Prop := ∀ p, (k.proc p).state = .runnable → (k'.proc p).state = .runnable

instance : Std.Refl StillRunnable := ⟨fun _ _ h => h⟩

instance : IsTrans Kern StillRunnable := ⟨fun _ _ _ h h' p hr => h' p (h p hr)⟩

theorem stillRunnable_woke (k : Kern) (p : Nat) : StillRunnable k (k.woke p) := by
  intro q hr
  by_cases hq : q = p
  · rw [hq]
    exact Kern.woke_state
  · rw [Kern.woke_other hq]
    exact hr

theorem keeps_wakeupProc (p : Nat) : Keeps StillRunnable (wakeupProc p) := by
  intro k
  rcases wakeupProc_cases p k with hrun | hrun | hrun
  · rw [hrun]
    exact stillRunnable_woke k p
  · rw [hrun]
    trivial
  · rw [hrun]
    trivial

theorem keeps_expireLoop : ∀ ts : List Timer, Keeps StillRunnable (expireLoop ts)
  | []        => .of_pure _
  | t :: rest => by
    rw [expireLoop]
    split
    · refine .bind .of_get fun k => .bind (.of_check _ _) fun _ => .bind (keeps_wakeupProc _) fun _ => ?_
      exact .bind (.of_modify fun _ _ hr => hr) fun _ => keeps_expireLoop rest
    · exact .of_pure _

theorem keeps_procTick (p : Nat) : Keeps StillRunnable (schedClassProcTick p) := by
  have hmod : ∀ f : ProcStruct → ProcStruct, (∀ x, (f x).state = x.state) → ∀ k : Kern, StillRunnable k (k.modProc p f) := by
    intro f hf k q hr
    by_cases hq : q = p
    · rw [hq, Kern.modProc_self, hf, ← hq]
      exact hr
    · rw [Kern.modProc_other k f hq]
      exact hr
  refine .bind .of_get fun k => ?_
  split
  · exact .of_modify (hmod _ fun _ => rfl)
  · exact .of_modify (hmod _ fun _ => rfl)

theorem keeps_runTimerList : Keeps StillRunnable runTimerList := by
  have hlast : Keeps StillRunnable (Proc.get >>= fun k => schedClassProcTick k.current) :=
    .bind .of_get fun k => keeps_procTick _
  intro k
  rw [runTimerList, Proc.get_bind]
  cases k.timerList with
  | nil => exact hlast k
  | cons t rest =>
    show ((Proc.check .timerHead (t.expires ≠ 0) >>= _ : KernM Unit) k).Leaves _
    by_cases hzero : t.expires ≠ 0
    · rw [Proc.check_bind_pos hzero]
      exact (Keeps.bind (keeps_expireLoop _) fun _ => hlast) (k.setTimers ({ t with expires := t.expires - 1 } :: rest))
    · rw [Proc.check_bind_neg hzero]
      trivial

theorem keeps_wakeupWait (q : QueueId) (p flags : Nat) : Keeps StillRunnable (wakeupWait q p flags) := by
  refine .bind (fun k => ?_) fun _ => .bind (.of_modify fun _ _ hr => hr) fun _ => keeps_wakeupProc _
  rw [waitQueueDel, Proc.get_bind]
  by_cases hmem : p ∈ k.waitQueue q ∧ (k.wait p).waitQueue = q
  · rw [Proc.check_bind_pos hmem]
    exact fun _ hr => hr
  · rw [Proc.check_bind_neg hmem]
    trivial

theorem keeps_wakeupQueueLoop (q : QueueId) (flags : Nat) : ∀ fuel, Keeps StillRunnable (wakeupQueueLoop q flags fuel)
  | 0        => .of_stop _
  | fuel + 1 => by
    refine .bind .of_get fun k => ?_
    split
    · exact .of_pure _
    · exact .bind (keeps_wakeupWait _ _ _) fun _ => keeps_wakeupQueueLoop q flags fuel

theorem keeps_devStdinWrite : Keeps StillRunnable devStdinWrite := by
  refine .bind (.of_modify fun k p hr => ?_) fun _ => .bind .of_get fun k => ?_
  · show ((ite _ _ k : Kern).proc p).state = .runnable
    split
    · exact hr
    · exact hr
  · split
    · exact .bind .of_get fun _ => keeps_wakeupQueueLoop _ _ _
    · exact .of_pure _

end Ucore
