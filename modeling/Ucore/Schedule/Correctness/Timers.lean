import Mathlib.Data.List.Nodup
import Ucore.Lib.Run
import Ucore.Process.Proc
import Ucore.Schedule.Correctness.Sched

/-!
# `Schedule.Correctness.Timers` — the delta list of timers is a set of deadlines

A node of `timer_list` stores how many ticks lie between the timer in front of it and itself. `absolute now` replaces
these by running sums, and what the three functions of `sched.c` do becomes plain: `add_timer` adds a deadline,
`del_timer` takes one out, and a tick takes out those that are due.

`Pending` says the same of the history of the calls, without the list.
-/

namespace Ucore

/-- The timers with their deadlines, `base` being the deadline in front of them. -/
def absolute : Nat → List Timer → List Timer
  | _, []           => []
  | base, t :: rest => { t with expires := base + t.expires } :: absolute (base + t.expires) rest

/-- The timers at the head of the list that are due. -/
def dueTimers (ts : List Timer) : List Timer := ts.takeWhile fun t => t.expires = 0

def laterTimers (ts : List Timer) : List Timer := ts.dropWhile fun t => t.expires = 0

/-- The links of the timers. -/
def timerLinks (ts : List Timer) : List Nat := ts.map Timer.link

variable {k k' : Kern} {t timer : Timer} {ts rest : List Timer} {base link : Nat}

/-! ## The list -/

theorem links_absolute : ∀ (base : Nat) (ts : List Timer), timerLinks (absolute base ts) = timerLinks ts
  | _, []           => rfl
  | base, t :: rest => congrArg (t.link :: ·) (links_absolute (base + t.expires) rest)

theorem base_le_absolute : ∀ {ts : List Timer} {base : Nat}, ∀ t ∈ absolute base ts, base ≤ t.expires
  | [], _, _, hmem            => absurd hmem List.not_mem_nil
  | t :: rest, base, a, hmem => by
    rcases List.mem_cons.mp hmem with rfl | hmem
    · exact Nat.le_add_right base t.expires
    · have hle := base_le_absolute a hmem
      omega

theorem timerQueued_iff : timerQueued link ts = true ↔ link ∈ timerLinks ts := by
  simp only [timerQueued, timerLinks, List.any_eq_true, List.mem_map, beq_iff_eq]

/-- **Insertion** adds one deadline and changes no other. -/
theorem absolute_insert : ∀ (ts : List Timer) (timer : Timer) (base : Nat),
    (absolute base (timerInsert timer ts)).Perm ({ timer with expires := base + timer.expires } :: absolute base ts)
  | [], _, _                  => List.Perm.refl _
  | next :: rest, timer, base => by
    rw [timerInsert]
    split
    · next hlt =>
      -- the timer behind the new one waits for that much less
      have hsum : base + timer.expires + (next.expires - timer.expires) = base + next.expires := by omega
      simp only [absolute, hsum]
      exact List.Perm.refl _
    · next hge =>
      have hsum : base + next.expires + (timer.expires - next.expires) = base + timer.expires := by omega
      have htail := absolute_insert rest { timer with expires := timer.expires - next.expires } (base + next.expires)
      simp only [hsum] at htail
      simp only [absolute]
      exact (htail.cons _).trans (List.Perm.swap _ _ _)

/-- **Removal** takes out one deadline and changes no other, as long as no sum overflows. -/
theorem absolute_remove : ∀ (ts : List Timer) (base : Nat), (∀ t ∈ absolute base ts, t.expires < base + 2 ^ 32) →
    absolute base (timerRemove link ts) = (absolute base ts).eraseP fun t => t.link = link
  | [], _, _              => rfl
  | t :: rest, base, hlt => by
    simp only [timerRemove, absolute]
    have hrest : ∀ a ∈ absolute (base + t.expires) rest, a.expires < base + t.expires + 2 ^ 32 := by
      intro a hmem
      have hbound := hlt a (List.mem_cons_of_mem _ hmem)
      omega
    by_cases hlink : t.link = link
    · rw [if_pos hlink, List.eraseP_cons_of_pos (by exact decide_eq_true hlink)]
      cases rest with
      | nil => rfl
      | cons next rest =>
        -- the timer behind takes over the difference
        have hnext : base + t.expires + next.expires < base + 2 ^ 32 :=
          hlt _ (List.mem_cons_of_mem _ List.mem_cons_self)
        have hsum : base + (next.expires + t.expires) % 2 ^ 32 = base + t.expires + next.expires := by
          rw [Nat.mod_eq_of_lt (by omega)]
          omega
        by_cases hzero : t.expires ≠ 0
        · simp only [if_pos hzero, absolute, hsum]
        · have hbase : base + t.expires = base := by omega
          simp only [if_neg hzero, absolute, hbase]
    · rw [if_neg hlink, List.eraseP_cons_of_neg (by simpa using hlink)]
      exact congrArg _ (absolute_remove rest (base + t.expires) hrest)

/-- With the links all different there is only one timer to take out. -/
theorem eraseP_link : ∀ {ts : List Timer}, (timerLinks ts).Nodup →
    ts.eraseP (fun t => t.link = link) = ts.filter fun t => t.link ≠ link
  | [], _             => rfl
  | t :: rest, hnodup => by
    obtain ⟨hnot, hnodup⟩ := List.nodup_cons.mp hnodup
    by_cases hlink : t.link = link
    · have hall : ∀ a ∈ rest, decide (a.link ≠ link) = true := by
        intro a hmem
        refine decide_eq_true fun heq => hnot ?_
        rw [hlink, ← heq]
        exact List.mem_map_of_mem hmem
      rw [List.eraseP_cons_of_pos (by exact decide_eq_true hlink),
        List.filter_cons_of_neg (by simpa using hlink), List.filter_eq_self.mpr hall]
    · rw [List.eraseP_cons_of_neg (by simpa using hlink),
        List.filter_cons_of_pos (by simpa using hlink), eraseP_link hnodup]

/-- The timers that are due have the smallest deadline. -/
theorem absolute_due : ∀ (ts : List Timer) (base : Nat),
    ((absolute base ts).filter fun t => t.expires = base) = (dueTimers ts).map fun t => { t with expires := base }
  | [], _           => rfl
  | t :: rest, base => by
    by_cases hzero : t.expires = 0
    · have hbase : base + t.expires = base := by omega
      rw [dueTimers, List.takeWhile_cons_of_pos (by exact decide_eq_true hzero), absolute, hbase,
        List.filter_cons_of_pos (by exact decide_eq_true rfl), absolute_due rest base]
      rfl
    · have hlate : ∀ a ∈ absolute base (t :: rest), ¬ decide (a.expires = base) = true := by
        intro a hmem hdec
        have heq : a.expires = base := of_decide_eq_true hdec
        rcases List.mem_cons.mp hmem with rfl | hmem
        · have hsum : base + t.expires = base := heq
          omega
        · have hle := base_le_absolute a hmem
          omega
      rw [dueTimers, List.takeWhile_cons_of_neg (by simpa using hzero), List.filter_eq_nil_iff.mpr hlate]
      rfl

theorem absolute_later : ∀ (ts : List Timer) (base : Nat),
    absolute base (laterTimers ts) = (absolute base ts).filter fun t => t.expires ≠ base
  | [], _           => rfl
  | t :: rest, base => by
    by_cases hzero : t.expires = 0
    · have hbase : base + t.expires = base := by omega
      rw [laterTimers, List.dropWhile_cons_of_pos (by exact decide_eq_true hzero), absolute, hbase,
        List.filter_cons_of_neg (by simp), ← absolute_later rest base]
      rfl
    · have hlate : ∀ a ∈ absolute base (t :: rest), decide (a.expires ≠ base) = true := by
        intro a hmem
        refine decide_eq_true ?_
        rcases List.mem_cons.mp hmem with rfl | hmem
        · show base + t.expires ≠ base
          omega
        · have hle := base_le_absolute a hmem
          omega
      rw [laterTimers, List.dropWhile_cons_of_neg (by simpa using hzero), List.filter_eq_self.mpr hlate]

/-! ## A tick -/

/-- The head of the list has one tick less to wait. -/
def ticked : List Timer → List Timer
  | []        => []
  | t :: rest => { t with expires := t.expires - 1 } :: rest

theorem absolute_ticked : ∀ (ts : List Timer) (base : Nat), (∀ t ∈ ts.head?, 0 < t.expires) →
    absolute (base + 1) (ticked ts) = absolute base ts
  | [], _, _             => rfl
  | t :: rest, base, hpos => by
    have ht : 0 < t.expires := hpos t rfl
    have hsum : base + 1 + (t.expires - 1) = base + t.expires := by omega
    simp only [ticked, absolute, hsum]

/-- The process of a timer as `run_timer_list` and `wakeup_proc` want it. -/
structure Kern.Wakeable (k : Kern) (p : Nat) : Prop where
  alive : (k.proc p).state ≠ .zombie
  queued : p ∈ k.runList → (k.proc p).state = .runnable
  wait : (k.proc p).waitState ≠ 0 → interruptible (k.proc p).waitState = true

/-- The assertions about the process of a timer. -/
def KernPanic.OfSleeper (e : KernPanic) : Prop := e = .timerWait ∨ e = .wakeupZombie ∨ e = .enqueue

theorem Kern.Wakeable.woke {p : Nat} (q : Nat) (h : k.Wakeable p) : (k.woke q).Wakeable p := by
  by_cases hpq : p = q
  · subst hpq
    refine ⟨?_, fun _ => Kern.woke_state, fun hw => ?_⟩
    · rw [Kern.woke_state]
      exact ProcState.noConfusion
    · rcases Kern.woke_waitState (k := k) (p := p) with hzero | ⟨_, hsame⟩
      · exact absurd hzero hw
      · rw [hsame] at hw ⊢
        exact h.wait hw
  · have hother := Kern.woke_other (k := k) hpq
    refine ⟨?_, fun hmem => ?_, ?_⟩
    · rw [hother]
      exact h.alive
    · rw [hother]
      exact h.queued ((Kern.mem_woke_runList hmem).resolve_right hpq)
    · rw [hother]
      exact h.wait

/-- A round of `run_timer_list`. -/
theorem expireLoop_round (hzero : t.expires = 0) (hlist : k.timerList = t :: rest) :
    expireLoop (t :: rest) k = expireLoop rest ((k.woke t.proc).setTimers rest) ∨
    ∃ e, expireLoop (t :: rest) k = .panic e ∧ e.OfSleeper ∧ ¬ k.Wakeable t.proc := by
  rw [expireLoop, if_pos hzero, Proc.get_bind]
  by_cases hwait : (k.proc t.proc).waitState ≠ 0 → interruptible (k.proc t.proc).waitState = true
  · rw [Proc.check_bind_pos hwait]
    rcases wakeupProc_cases t.proc k with hrun | hrun | hrun
    · refine .inl ?_
      rw [Proc.bind_ok hrun, delTimer, Proc.modify_bind, Kern.woke_timerList, hlist]
      have hremove : timerRemove t.link (t :: rest) = rest := by
        cases rest with
        | nil => exact if_pos rfl
        | cons next rest => exact (if_pos rfl).trans (if_neg (not_not_intro hzero))
      rw [hremove]
    · refine .inr ⟨_, Proc.bind_panic hrun, .inr (.inl rfl), fun hw => ?_⟩
      rw [wakeupProc_run hw.alive hw.queued] at hrun
      cases hrun
    · refine .inr ⟨_, Proc.bind_panic hrun, .inr (.inr rfl), fun hw => ?_⟩
      rw [wakeupProc_run hw.alive hw.queued] at hrun
      cases hrun
  · exact .inr ⟨_, Proc.check_bind_neg hwait _ _, .inl rfl, fun hw => hwait hw.wait⟩

/-- The loop takes out the timers that are due and wakes their processes. -/
theorem expireLoop_spec : ∀ (ts : List Timer) (k : Kern), k.timerList = ts →
    (∃ k', expireLoop ts k = .ok () k' ∧ k'.timerList = laterTimers ts ∧
      k'.woken = ((dueTimers ts).map Timer.proc).reverse ++ k.woken) ∨
    ∃ e, expireLoop ts k = .panic e ∧ e.OfSleeper ∧ ¬ ∀ t ∈ ts, k.Wakeable t.proc
  | [], k, hlist        => .inl ⟨k, rfl, hlist, rfl⟩
  | t :: rest, k, hlist => by
    by_cases hzero : t.expires = 0
    · have hlater : laterTimers (t :: rest) = laterTimers rest := List.dropWhile_cons_of_pos (by exact decide_eq_true hzero)
      have hdue : dueTimers (t :: rest) = t :: dueTimers rest := List.takeWhile_cons_of_pos (by exact decide_eq_true hzero)
      rcases expireLoop_round hzero hlist with hround | ⟨e, hpanic, hof, hnot⟩
      · rw [hround, hlater, hdue]
        rcases expireLoop_spec rest ((k.woke t.proc).setTimers rest) rfl with ⟨k', hrun, hts, hwoken⟩ | ⟨e, hpanic, hof, hnot⟩
        · refine .inl ⟨k', hrun, hts, ?_⟩
          have hlog : ((k.woke t.proc).setTimers rest).woken = t.proc :: k.woken := Kern.woke_woken
          rw [hwoken, hlog, List.map_cons, List.reverse_cons, List.append_assoc, List.singleton_append]
        · refine .inr ⟨e, hpanic, hof, fun hall => hnot fun a hmem => ?_⟩
          have hwoke := (hall a (List.mem_cons_of_mem _ hmem)).woke t.proc
          exact ⟨hwoke.alive, hwoke.queued, hwoke.wait⟩
      · exact .inr ⟨e, hpanic, hof, fun hall => hnot (hall t List.mem_cons_self)⟩
    · refine .inl ⟨k, ?_, ?_, ?_⟩
      · rw [expireLoop, if_neg hzero]
        rfl
      · rw [hlist]
        exact (List.dropWhile_cons_of_neg (by simpa using hzero)).symm
      · rw [dueTimers, List.takeWhile_cons_of_neg (by simpa using hzero)]
        rfl

theorem schedClassProcTick_run (p : Nat) (k : Kern) : ∃ k', schedClassProcTick p k = .ok () k' ∧
    k'.timerList = k.timerList ∧ k'.woken = k.woken := by
  rw [schedClassProcTick, Proc.get_bind]
  split
  · exact ⟨_, rfl, rfl, rfl⟩
  · exact ⟨_, rfl, rfl, rfl⟩

theorem runTimerList_cons (hlist : k.timerList = t :: rest) (ht : t.expires ≠ 0) :
    runTimerList k = (expireLoop (ticked k.timerList) >>= fun _ => Proc.get >>= fun k => schedClassProcTick k.current)
      (k.setTimers (ticked k.timerList)) := by
  rw [runTimerList, Proc.get_bind, hlist]
  exact Proc.check_bind_pos ht _ _

/-- **`run_timer_list`** with a head that has ticks left. -/
theorem runTimerList_spec (hpos : ∀ t ∈ k.timerList.head?, 0 < t.expires) :
    (∃ k', runTimerList k = .ok () k' ∧ k'.timerList = laterTimers (ticked k.timerList) ∧
      k'.woken = ((dueTimers (ticked k.timerList)).map Timer.proc).reverse ++ k.woken) ∨
    ∃ e, runTimerList k = .panic e ∧ e.OfSleeper ∧ ¬ ∀ t ∈ k.timerList, k.Wakeable t.proc := by
  cases hlist : k.timerList with
  | nil =>
    obtain ⟨k', hrun, hts, hwoken⟩ := schedClassProcTick_run k.current k
    refine .inl ⟨k', ?_, hts.trans hlist, hwoken⟩
    rw [runTimerList, Proc.get_bind, hlist]
    exact hrun
  | cons t rest =>
    have ht : t.expires ≠ 0 := Nat.ne_of_gt (hpos t (by rw [hlist]; rfl))
    have hticked := expireLoop_spec (ticked (t :: rest)) (k.setTimers (ticked (t :: rest))) rfl
    rw [← hlist, runTimerList_cons hlist ht]
    rw [← hlist] at hticked
    rcases hticked with ⟨k1, hrun, hts, hwoken⟩ | ⟨e, hpanic, hof, hnot⟩
    · obtain ⟨k', hrun', hts', hwoken'⟩ := schedClassProcTick_run k1.current k1
      exact .inl ⟨k', (Proc.bind_ok hrun).trans hrun', hts'.trans hts, hwoken'.trans hwoken⟩
    · refine .inr ⟨e, Proc.bind_panic hpanic, hof, fun hall => hnot fun a hmem => ?_⟩
      rw [hlist] at hmem hall
      have hproc : ∃ b ∈ t :: rest, b.proc = a.proc := by
        rcases List.mem_cons.mp hmem with rfl | hmem
        · exact ⟨t, List.mem_cons_self, rfl⟩
        · exact ⟨a, List.mem_cons_of_mem _ hmem, rfl⟩
      obtain ⟨b, hb, hbproc⟩ := hproc
      have hwake := hall b hb
      rw [hbproc] at hwake
      exact ⟨hwake.alive, hwake.queued, hwake.wait⟩

/-! ## Runs -/

inductive TimerCall where
  | add (timer : Timer)
  | del (link : Nat)
  | tick
  | other
deriving DecidableEq

/-- How many ticks a history has, the last call being its first element. -/
def ticks (calls : List TimerCall) : Nat := calls.count .tick

/-- Some `add_timer` armed the alarm, for a number of ticks from then on, and nothing has deleted it since. -/
def Armed (calls : List TimerCall) (alarm : Timer) : Prop :=
  ∃ timer later earlier, calls = later ++ .add timer :: earlier ∧
    alarm = { timer with expires := ticks earlier + timer.expires } ∧ .del timer.link ∉ later

/-- Its time is yet to come. -/
def Pending (calls : List TimerCall) (alarm : Timer) : Prop := Armed calls alarm ∧ ticks calls < alarm.expires

/-- The kernel and the history. Whatever else the kernel does leaves the list of timers alone. -/
inductive TimerStep : Kern × List TimerCall → TimerCall → Kern × List TimerCall → Prop where
  | add {k k' : Kern} {calls : List TimerCall} {timer : Timer} (hpos : 0 < timer.expires)
      (hlt : timer.expires < 2 ^ 32) (hout : timerQueued timer.link k.timerList = false)
      (h : addTimer timer k = .ok () k') : TimerStep (k, calls) (.add timer) (k', .add timer :: calls)
  | del {k k' : Kern} {calls : List TimerCall} {link : Nat} (h : delTimer link k = .ok () k') :
      TimerStep (k, calls) (.del link) (k', .del link :: calls)
  | tick {k k' : Kern} {calls : List TimerCall} (h : runTimerList k = .ok () k') :
      TimerStep (k, calls) .tick (k', .tick :: calls)
  | other {k k' : Kern} {calls : List TimerCall} (h : k'.timerList = k.timerList) :
      TimerStep (k, calls) .other (k', .other :: calls)

def TimerInit (a : Kern × List TimerCall) : Prop := a.1.timerList = [] ∧ a.2 = []

variable {calls : List TimerCall} {call : TimerCall} {alarm : Timer}

theorem armed_cons : Armed (call :: calls) alarm ↔
    (∃ timer, call = .add timer ∧ alarm = { timer with expires := ticks calls + timer.expires }) ∨
    (Armed calls alarm ∧ call ≠ .del alarm.link) := by
  constructor
  · rintro ⟨timer, later, earlier, hsplit, halarm, hnot⟩
    cases later with
    | nil =>
      obtain ⟨rfl, rfl⟩ := List.cons.inj hsplit
      exact .inl ⟨timer, rfl, halarm⟩
    | cons c later =>
      obtain ⟨rfl, htail⟩ := List.cons.inj hsplit
      have hlink : alarm.link = timer.link := by rw [halarm]
      refine .inr ⟨⟨timer, later, earlier, htail, halarm, fun hmem => hnot (List.mem_cons_of_mem _ hmem)⟩, fun heq => ?_⟩
      rw [hlink] at heq
      exact hnot (heq ▸ List.mem_cons_self)
  · rintro (⟨timer, rfl, halarm⟩ | ⟨⟨timer, later, earlier, hsplit, halarm, hnot⟩, hne⟩)
    · exact ⟨timer, [], calls, rfl, halarm, List.not_mem_nil⟩
    · have hlink : alarm.link = timer.link := by rw [halarm]
      refine ⟨timer, call :: later, earlier, congrArg (call :: ·) hsplit, halarm, fun hmem => ?_⟩
      rcases List.mem_cons.mp hmem with heq | hmem
      · exact hne (by rw [hlink]; exact heq.symm)
      · exact hnot hmem

theorem pending_add (hpos : 0 < timer.expires) : Pending (.add timer :: calls) alarm ↔
    alarm = { timer with expires := ticks calls + timer.expires } ∨ Pending calls alarm := by
  have hticks : ticks (.add timer :: calls) = ticks calls := List.count_cons_of_ne (by exact TimerCall.noConfusion)
  rw [Pending, armed_cons, hticks]
  constructor
  · rintro ⟨⟨t, heq, halarm⟩ | ⟨harmed, _⟩, hlt⟩
    · obtain rfl := TimerCall.add.inj heq
      exact .inl halarm
    · exact .inr ⟨harmed, hlt⟩
  · rintro (rfl | ⟨harmed, hlt⟩)
    · exact ⟨.inl ⟨timer, rfl, rfl⟩, Nat.lt_add_of_pos_right hpos⟩
    · exact ⟨.inr ⟨harmed, TimerCall.noConfusion⟩, hlt⟩

theorem pending_del : Pending (.del link :: calls) alarm ↔ Pending calls alarm ∧ alarm.link ≠ link := by
  have hticks : ticks (.del link :: calls) = ticks calls := List.count_cons_of_ne (by exact TimerCall.noConfusion)
  rw [Pending, armed_cons, hticks]
  constructor
  · rintro ⟨⟨t, heq, _⟩ | ⟨harmed, hne⟩, hlt⟩
    · exact TimerCall.noConfusion heq
    · exact ⟨⟨harmed, hlt⟩, fun heq => hne (congrArg TimerCall.del heq.symm)⟩
  · rintro ⟨⟨harmed, hlt⟩, hne⟩
    exact ⟨.inr ⟨harmed, fun heq => hne (TimerCall.del.inj heq).symm⟩, hlt⟩

theorem pending_tick : Pending (.tick :: calls) alarm ↔ Pending calls alarm ∧ alarm.expires ≠ ticks calls + 1 := by
  have hticks : ticks (.tick :: calls) = ticks calls + 1 := List.count_cons_self
  rw [Pending, armed_cons, hticks]
  constructor
  · rintro ⟨⟨t, heq, _⟩ | ⟨harmed, _⟩, hlt⟩
    · exact TimerCall.noConfusion heq
    · exact ⟨⟨harmed, Nat.lt_of_succ_lt hlt⟩, Nat.ne_of_gt hlt⟩
  · rintro ⟨⟨harmed, hlt⟩, hne⟩
    exact ⟨.inr ⟨harmed, TimerCall.noConfusion⟩, Nat.lt_of_le_of_ne hlt hne.symm⟩

theorem pending_other : Pending (.other :: calls) alarm ↔ Pending calls alarm := by
  have hticks : ticks (.other :: calls) = ticks calls := List.count_cons_of_ne (by exact TimerCall.noConfusion)
  rw [Pending, armed_cons, hticks]
  constructor
  · rintro ⟨⟨t, heq, _⟩ | ⟨harmed, _⟩, hlt⟩
    · exact TimerCall.noConfusion heq
    · exact ⟨harmed, hlt⟩
  · rintro ⟨harmed, hlt⟩
    exact ⟨.inr ⟨harmed, TimerCall.noConfusion⟩, hlt⟩

/-- **The invariant.** The list holds the alarms that are pending. -/
structure TimerInv (k : Kern) (calls : List TimerCall) : Prop where
  pending : ∀ a, a ∈ absolute (ticks calls) k.timerList ↔ Pending calls a
  nodup : (timerLinks k.timerList).Nodup
  bound : ∀ a ∈ absolute (ticks calls) k.timerList, a.expires < ticks calls + 2 ^ 32

/-- The head has ticks left: its deadline is yet to come. -/
theorem TimerInv.head_pos (h : TimerInv k calls) : ∀ t ∈ k.timerList.head?, 0 < t.expires := by
  intro t hmem
  obtain ⟨rest, hlist⟩ : ∃ rest, k.timerList = t :: rest := List.head?_eq_some_iff.mp hmem
  have hfirst : { t with expires := ticks calls + t.expires } ∈ absolute (ticks calls) k.timerList := by
    rw [hlist]
    exact List.mem_cons_self
  have hlt : ticks calls < ticks calls + t.expires := ((h.pending _).mp hfirst).2
  omega

theorem addTimer_run (hpos : 0 < timer.expires) (hout : timerQueued timer.link k.timerList = false) :
    addTimer timer k = .ok () (k.setTimers (timerInsert timer k.timerList)) := by
  rw [addTimer, Proc.get_bind, Proc.check_bind_pos hpos, Proc.check_bind_pos hout]
  rfl

/-- What a tick leaves of the deadlines, and the alarms that it takes out. -/
theorem TimerInv.absolute_tick (h : TimerInv k calls) :
    absolute (ticks calls + 1) (laterTimers (ticked k.timerList)) =
      (absolute (ticks calls) k.timerList).filter fun t => t.expires ≠ ticks calls + 1 := by
  rw [absolute_later, absolute_ticked _ _ h.head_pos]

/-- A call that takes alarms out, and arms none. -/
theorem TimerInv.filter (h : TimerInv k calls) (keep : Timer → Bool) (hle : ticks calls ≤ ticks (call :: calls))
    (habs : absolute (ticks (call :: calls)) k'.timerList = (absolute (ticks calls) k.timerList).filter keep)
    (hpending : ∀ a, Pending (call :: calls) a ↔ Pending calls a ∧ keep a = true) : TimerInv k' (call :: calls) where
  pending a := by rw [habs, List.mem_filter, h.pending a, hpending a]
  nodup := by
    rw [← links_absolute (ticks (call :: calls)), habs]
    refine ((List.filter_sublist (l := absolute (ticks calls) k.timerList)).map Timer.link).nodup ?_
    show (timerLinks (absolute (ticks calls) k.timerList)).Nodup
    rw [links_absolute]
    exact h.nodup
  bound a hmem := by
    rw [habs] at hmem
    have hbound := h.bound a (List.mem_filter.mp hmem).1
    exact Nat.lt_of_lt_of_le hbound (Nat.add_le_add_right hle _)

/-- A timer that was not in the list is armed. -/
theorem TimerInv.insert (h : TimerInv k calls) (hpos : 0 < timer.expires) (hlt : timer.expires < 2 ^ 32)
    (hout : timerQueued timer.link k.timerList = false) :
    TimerInv (k.setTimers (timerInsert timer k.timerList)) (.add timer :: calls) := by
  have hperm := absolute_insert k.timerList timer (ticks calls)
  have hticks : ticks (.add timer :: calls) = ticks calls := List.count_cons_of_ne (by exact TimerCall.noConfusion)
  refine ⟨fun a => ?_, ?_, fun a hmem => ?_⟩
  · show a ∈ absolute (ticks (.add timer :: calls)) (timerInsert timer k.timerList) ↔ _
    rw [hticks, hperm.mem_iff, List.mem_cons, h.pending a, pending_add hpos]
  · show (timerLinks (timerInsert timer k.timerList)).Nodup
    have hlinks := hperm.map Timer.link
    rw [← links_absolute (ticks calls)]
    refine hlinks.nodup_iff.mpr (List.nodup_cons.mpr ⟨fun hmem => ?_, ?_⟩)
    · have hin : timer.link ∈ timerLinks k.timerList := links_absolute (ticks calls) k.timerList ▸ hmem
      rw [timerQueued_iff.mpr hin] at hout
      exact Bool.noConfusion hout
    · show (timerLinks (absolute (ticks calls) k.timerList)).Nodup
      rw [links_absolute]
      exact h.nodup
  · rw [hticks] at hmem ⊢
    rcases List.mem_cons.mp (hperm.mem_iff.mp hmem) with rfl | hmem
    · exact Nat.add_lt_add_left hlt _
    · exact h.bound a hmem

/-- **The step lemma.** -/
theorem timerStep_inv {a b : Kern × List TimerCall} (h : TimerInv a.1 a.2) (hs : TimerStep a call b) :
    TimerInv b.1 b.2 := by
  cases hs with
  | @add k k' calls timer hpos hlt hout hrun =>
    obtain rfl : k.setTimers (timerInsert timer k.timerList) = k' := by
      rw [addTimer_run hpos hout] at hrun
      cases hrun
      rfl
    exact h.insert hpos hlt hout
  | @del k k' calls link hrun =>
    obtain rfl : k.setTimers (timerRemove link k.timerList) = k' := by cases hrun; rfl
    have hticks : ticks (.del link :: calls) = ticks calls := List.count_cons_of_ne (by exact TimerCall.noConfusion)
    refine TimerInv.filter h (fun t => t.link ≠ link) hticks.ge ?_ fun a => ?_
    · rw [hticks]
      refine (absolute_remove _ _ h.bound).trans (eraseP_link ?_)
      rw [links_absolute]
      exact h.nodup
    · rw [pending_del, decide_eq_true_iff]
  | @tick k k' calls hrun =>
    have hticks : ticks (.tick :: calls) = ticks calls + 1 := List.count_cons_self
    rcases runTimerList_spec h.head_pos with ⟨k1, hrun1, hts, _⟩ | ⟨e, hpanic, _⟩
    · obtain rfl : k1 = k' := by
        rw [hrun1] at hrun
        cases hrun
        rfl
      refine TimerInv.filter h (fun t => t.expires ≠ ticks calls + 1) (by omega) ?_ fun a => ?_
      · rw [hticks, hts]
        exact h.absolute_tick
      · rw [pending_tick, decide_eq_true_iff]
    · rw [hpanic] at hrun
      cases hrun
  | @other k k' calls hsame =>
    have hticks : ticks (.other :: calls) = ticks calls := List.count_cons_of_ne (by exact TimerCall.noConfusion)
    refine TimerInv.filter h (fun _ => true) hticks.ge ?_ fun a => ?_
    · rw [hticks, hsame, List.filter_true]
    · rw [pending_other, eq_self, and_true]

/-- **The run lemma.** -/
theorem timerReaches_inv {a : Kern × List TimerCall} (h : Reaches TimerInit TimerStep (fun _ _ => True) a) :
    TimerInv a.1 a.2 := by
  refine h.invariant (I := fun a => TimerInv a.1 a.2) ?_ fun a c b ha _ hs => timerStep_inv ha hs
  rintro ⟨k, calls⟩ ⟨hlist, hcalls⟩
  obtain rfl : calls = [] := hcalls
  have hnil : k.timerList = [] := hlist
  refine ⟨fun a => ?_, ?_, ?_⟩
  · show a ∈ absolute _ k.timerList ↔ _
    rw [hnil]
    refine ⟨fun hmem => absurd hmem List.not_mem_nil, ?_⟩
    rintro ⟨⟨timer, later, earlier, hsplit, _⟩, _⟩
    exact absurd hsplit.symm (List.append_ne_nil_of_right_ne_nil later (List.cons_ne_nil _ _))
  · show (timerLinks k.timerList).Nodup
    rw [hnil]
    exact .nil
  · show ∀ a ∈ absolute _ k.timerList, _
    rw [hnil]
    exact fun a hmem => absurd hmem List.not_mem_nil

/-- **The timers.** In every state reached the list holds the deadlines of the alarms that are pending, and its head has
    ticks left. A tick never fails on that account, and ends as long as the processes of the timers can be woken; it
    makes one `wakeup_proc` for every alarm with a deadline at this tick, and no other. `add_timer` adds one deadline to
    those there are, and `del_timer` takes out those of its timer. -/
theorem timer_list_deadlines {k : Kern} {calls : List TimerCall}
    (h : Reaches TimerInit TimerStep (fun _ _ => True) (k, calls)) :
    (∀ a, a ∈ absolute (ticks calls) k.timerList ↔ Pending calls a) ∧
    (∀ t ∈ k.timerList.head?, 0 < t.expires) ∧
    runTimerList k ≠ .panic .timerHead ∧
    ((∀ t ∈ k.timerList, k.Wakeable t.proc) → ∃ k', runTimerList k = .ok () k') ∧
    (∀ k', runTimerList k = .ok () k' → ∃ due : List Timer, due.Nodup ∧
      (∀ a, a ∈ due ↔ Pending calls a ∧ a.expires = ticks calls + 1) ∧
      k'.woken = (due.map Timer.proc).reverse ++ k.woken) ∧
    (∀ timer : Timer, 0 < timer.expires → timerQueued timer.link k.timerList = false →
      ∃ k', addTimer timer k = .ok () k' ∧ (absolute (ticks calls) k'.timerList).Perm
        ({ timer with expires := ticks calls + timer.expires } :: absolute (ticks calls) k.timerList)) ∧
    ∀ link, ∃ k', delTimer link k = .ok () k' ∧
      absolute (ticks calls) k'.timerList = (absolute (ticks calls) k.timerList).filter fun t => t.link ≠ link := by
  have hinv : TimerInv k calls := timerReaches_inv h
  have hnodup : (timerLinks (absolute (ticks calls) k.timerList)).Nodup := by
    rw [links_absolute]
    exact hinv.nodup
  refine ⟨hinv.pending, hinv.head_pos, ?_, ?_, ?_, fun timer hpos hout => ?_, fun link => ?_⟩
  · rcases runTimerList_spec hinv.head_pos with ⟨k', hrun, _⟩ | ⟨e, hpanic, hof, _⟩
    · rw [hrun]
      exact fun hcon => nomatch hcon
    · rw [hpanic]
      rintro ⟨⟩
      rcases hof with h | h | h <;> exact KernPanic.noConfusion h
  · intro hall
    rcases runTimerList_spec hinv.head_pos with ⟨k', hrun, _⟩ | ⟨e, hpanic, _, hnot⟩
    · exact ⟨k', hrun⟩
    · exact absurd hall hnot
  · intro k' hrun
    rcases runTimerList_spec hinv.head_pos with ⟨k1, hrun1, _, hwoken⟩ | ⟨e, hpanic, _⟩
    · obtain rfl : k1 = k' := by
        rw [hrun1] at hrun
        cases hrun
        rfl
      have hdue := absolute_due (ticked k.timerList) (ticks calls + 1)
      rw [absolute_ticked _ _ hinv.head_pos] at hdue
      refine ⟨(absolute (ticks calls) k.timerList).filter fun t => t.expires = ticks calls + 1,
        (List.Nodup.of_map Timer.link hnodup).filter _, fun a => ?_, ?_⟩
      · rw [List.mem_filter, hinv.pending a]
        exact and_congr_right fun _ => decide_eq_true_iff
      · rw [hdue, List.map_map]
        exact hwoken
    · rw [hpanic] at hrun
      cases hrun
  · exact ⟨_, addTimer_run hpos hout, absolute_insert k.timerList timer (ticks calls)⟩
  · refine ⟨_, rfl, ?_⟩
    show absolute (ticks calls) (timerRemove link k.timerList) = _
    rw [absolute_remove _ _ hinv.bound, eraseP_link hnodup]

/-- An alarm after three ticks. -/
theorem timer_list_deadlines_alarm : ∃ k', addTimer { link := 1, proc := 0, expires := 3 } (Kern.idle fun _ => 0) = .ok () k' ∧
    runTimerList k' ≠ .panic .timerHead := by
  have hadd : addTimer { link := 1, proc := 0, expires := 3 } (Kern.idle fun _ => 0) =
      .ok () ((Kern.idle fun _ => 0).setTimers [{ link := 1, proc := 0, expires := 3 }]) := addTimer_run (by decide) rfl
  have hstart : Reaches TimerInit TimerStep (fun _ _ => True) (Kern.idle fun _ => 0, []) := .start ⟨rfl, rfl⟩
  exact ⟨_, hadd, (timer_list_deadlines (hstart.next trivial (.add (by decide) (by decide) rfl hadd))).2.2.1⟩

end Ucore
