import Ucore.Process.Correctness.Exit

/-!
# `Process.Correctness.Wait` — `do_wait`

Either there is a zombie among the children that the process asks for, and it is reaped, or the process goes to sleep and
none of them is a zombie, or there is no such child.
-/

namespace Ucore

variable {k k' : Kern} {b : Nat → Option Blocked} {p q c : Nat} {l : List Nat} {pid : Int}

/-! ## The search -/

/-- What `do_wait` finds. -/
def LookOk (k : Kern) (pid : Int) : WaitLook → Prop
  | .bad     => True
  | .none    => ∀ c, k.IsChild k.current c → (pid ≠ 0 → (k.proc c).pid = pid) → (k.proc c).state ≠ .zombie
  | .found p => k.IsChild k.current p ∧ (k.proc p).state = .zombie ∧ (pid ≠ 0 → (k.proc p).pid = pid)

/-- The loop over the children stops at the first zombie. -/
theorem waitChildren_spec : ∀ (l : List Nat) (fuel : Nat) (haskid : Bool) (y head : Option Nat),
    Chained (fun p => (k.proc p).optr) (fun p => (k.proc p).yptr) y head l → l.length < fuel →
    ∃ look, waitChildren haskid fuel head k = .ok look k ∧
      ((∃ p ∈ l, look = .found p ∧ (k.proc p).state = .zombie) ∨
        ((∀ p ∈ l, (k.proc p).state ≠ .zombie) ∧ (look = .none ∨ look = .bad)))
  | _, 0, _, _, _, _, hfuel                  => absurd hfuel (Nat.not_lt_zero _)
  | [], fuel + 1, haskid, y, head, hlist, _ => by
    obtain rfl : head = none := hlist
    refine ⟨if haskid = true then .none else .bad, rfl, .inr ⟨fun p hp => absurd hp List.not_mem_nil, ?_⟩⟩
    split
    · exact .inl rfl
    · exact .inr rfl
  | p :: l, fuel + 1, haskid, y, head, hlist, hfuel => by
    obtain ⟨rfl, -, hrest⟩ := hlist
    rw [waitChildren, Proc.get_bind]
    by_cases hz : (k.proc p).state = .zombie
    · rw [if_pos hz]
      exact ⟨_, rfl, .inl ⟨p, List.mem_cons_self, rfl, hz⟩⟩
    · rw [if_neg hz]
      rw [List.length_cons] at hfuel
      obtain ⟨look, hrun, hlook⟩ := waitChildren_spec l fuel true _ _ hrest (by omega)
      refine ⟨look, hrun, ?_⟩
      rcases hlook with ⟨c, hc, heq, hcz⟩ | ⟨hall, hlook⟩
      · exact .inl ⟨c, List.mem_cons_of_mem p hc, heq, hcz⟩
      · refine .inr ⟨fun c hc => ?_, hlook⟩
        rcases List.mem_cons.mp hc with rfl | hc
        · exact hz
        · exact hall c hc

/-- **The search** of `do_wait`. -/
theorem waitLook_spec (ht : TreeInv none k) (hcur : k.current ∈ k.live) (pid : Int) :
    ∃ look, waitLook pid k = .ok look k ∧ LookOk k pid look := by
  rw [waitLook, Proc.get_bind]
  by_cases hpid : pid ≠ 0
  · rw [if_pos hpid]
    cases hfind : k.findProc pid with
    | none => exact ⟨.bad, rfl, trivial⟩
    | some p =>
      obtain ⟨hlive, hidle, hp⟩ := ht.findProc_eq_some.mp hfind
      dsimp only
      by_cases hparent : (k.proc p).parent = some k.current
      · rw [if_pos hparent]
        by_cases hz : (k.proc p).state = .zombie
        · rw [if_pos hz]
          exact ⟨.found p, rfl, ⟨hlive, hparent⟩, hz, fun _ => hp⟩
        · rw [if_neg hz]
          refine ⟨.none, rfl, fun c hc hcp => ?_⟩
          -- it is the only one with the pid
          have hci : c ≠ k.idleproc := by
            rintro rfl
            exact nomatch ht.idleLinks.1.symm.trans hc.2
          rw [ht.pid_inj hc.1 hci hlive hidle ((hcp hpid).trans hp.symm)]
          exact hz
      · rw [if_neg hparent]
        exact ⟨.bad, rfl, trivial⟩
  · rw [if_neg hpid]
    obtain ⟨y, l, -, hkids⟩ := ht.kids _ hcur
    have hlength : l.length < k.live.card + 1 := by
      have hsub : l.toFinset ⊆ k.live := fun c hc => ((hkids.mem c).mp (List.mem_toFinset.mp hc)).1
      have hcard := Finset.card_le_card hsub
      rw [List.toFinset_card_of_nodup hkids.nodup] at hcard
      omega
    obtain ⟨look, hrun, hlook⟩ := waitChildren_spec l _ false y _ hkids.chained hlength
    refine ⟨look, hrun, ?_⟩
    rcases hlook with ⟨p, hp, rfl, hz⟩ | ⟨hall, rfl | rfl⟩
    · exact ⟨(hkids.mem p).mp hp, hz, fun hne => absurd hne hpid⟩
    · exact fun c hc _ => hall c ((hkids.mem c).mpr hc)
    · trivial

/-! ## Reaping -/

namespace Kern

def detachFirst (k : Kern) (p : Nat) : Kern :=
  ({ k with hashList := fun i => (k.hashList i).erase p, procList := k.procList.erase p } : Kern).modSome (k.proc p).optr
    fun x => { x with yptr := (k.proc p).yptr }

def detachSecond (k : Kern) (p : Nat) : Kern := (k.detachFirst p).modSome (k.proc p).yptr fun x =>
  { x with optr := (k.proc p).optr }

/-- `remove_links`; without an elder sibling the parent at `q` changes. -/
def detached (k : Kern) (p q : Nat) : Kern :=
  (k.detachSecond p).modSome (if (k.proc p).yptr = none then some q else none) fun x => { x with cptr := (k.proc p).optr }

/-- The child at `p` is gone. -/
def reaped (k : Kern) (p q : Nat) : Kern :=
  { k.detached p q with nrProcess := k.nrProcess - 1, live := k.live.erase p }

theorem reaped_field {α : Type} (g : ProcStruct → α) (hg : ∀ x (cp yp op : Option Nat),
    g { x with cptr := cp, yptr := yp, optr := op } = g x) (k : Kern) (p q c : Nat) :
    g ((k.reaped p q).proc c) = g (k.proc c) := by
  have h3 : g ((k.detached p q).proc c) = g ((k.detachSecond p).proc c) :=
    modSome_field g (fun x => hg x (k.proc p).optr x.yptr x.optr) _ _ c
  have h2 : g ((k.detachSecond p).proc c) = g ((k.detachFirst p).proc c) :=
    modSome_field g (fun x => hg x x.cptr x.yptr (k.proc p).optr) _ _ c
  have h1 : g ((k.detachFirst p).proc c) = g (k.proc c) :=
    modSome_field g (fun x => hg x x.cptr (k.proc p).yptr x.optr) _ _ c
  exact h3.trans (h2.trans h1)

theorem reaped_optr (k : Kern) (p q c : Nat) : ((k.reaped p q).proc c).optr =
    if (k.proc p).yptr = some c then (k.proc p).optr else (k.proc c).optr := by
  have h3 : ((k.detached p q).proc c).optr = ((k.detachSecond p).proc c).optr :=
    modSome_field ProcStruct.optr (by exact fun _ => rfl) _ _ c
  have h2 : ((k.detachSecond p).proc c).optr =
      if (k.proc p).yptr = some c then (k.proc p).optr else ((k.detachFirst p).proc c).optr :=
    modSome_set ProcStruct.optr (by exact fun _ => rfl) _ _ c
  have h1 : ((k.detachFirst p).proc c).optr = (k.proc c).optr :=
    modSome_field ProcStruct.optr (by exact fun _ => rfl) _ _ c
  exact h3.trans (h2.trans (by rw [h1]))

theorem reaped_yptr (k : Kern) (p q c : Nat) : ((k.reaped p q).proc c).yptr =
    if (k.proc p).optr = some c then (k.proc p).yptr else (k.proc c).yptr := by
  have h3 : ((k.detached p q).proc c).yptr = ((k.detachSecond p).proc c).yptr :=
    modSome_field ProcStruct.yptr (by exact fun _ => rfl) _ _ c
  have h2 : ((k.detachSecond p).proc c).yptr = ((k.detachFirst p).proc c).yptr :=
    modSome_field ProcStruct.yptr (by exact fun _ => rfl) _ _ c
  have h1 : ((k.detachFirst p).proc c).yptr = if (k.proc p).optr = some c then (k.proc p).yptr else (k.proc c).yptr :=
    modSome_set ProcStruct.yptr (by exact fun _ => rfl) _ _ c
  exact h3.trans (h2.trans h1)

theorem reaped_cptr (k : Kern) (p q c : Nat) : ((k.reaped p q).proc c).cptr =
    if c = q ∧ (k.proc p).yptr = none then (k.proc p).optr else (k.proc c).cptr := by
  have h3 : ((k.detached p q).proc c).cptr = if (if (k.proc p).yptr = none then some q else none) = some c then
      (k.proc p).optr else ((k.detachSecond p).proc c).cptr :=
    modSome_set ProcStruct.cptr (by exact fun _ => rfl) _ _ c
  have h2 : ((k.detachSecond p).proc c).cptr = ((k.detachFirst p).proc c).cptr :=
    modSome_field ProcStruct.cptr (by exact fun _ => rfl) _ _ c
  have h1 : ((k.detachFirst p).proc c).cptr = (k.proc c).cptr :=
    modSome_field ProcStruct.cptr (by exact fun _ => rfl) _ _ c
  have hwhich : (if (k.proc p).yptr = none then some q else none) = some c ↔ c = q ∧ (k.proc p).yptr = none := by
    split
    · next hy => exact ⟨fun heq => ⟨(Option.some.inj heq).symm, hy⟩, fun hand => congrArg some hand.1.symm⟩
    · next hy => exact ⟨fun heq => (nomatch heq), fun hand => absurd hand.2 hy⟩
  simp only [hwhich, h2, h1] at h3
  exact h3

theorem reaped_eq (k : Kern) (p q : Nat) : k.reaped p q = { k with
    proc := (k.reaped p q).proc
    live := k.live.erase p
    hashList := fun i => (k.hashList i).erase p
    procList := k.procList.erase p
    nrProcess := k.nrProcess - 1 } := by
  have h3 : k.detached p q = { k.detachSecond p with proc := (k.detached p q).proc } := modSome_eq _ _ _
  have h2 : k.detachSecond p = { k.detachFirst p with proc := (k.detachSecond p).proc } := modSome_eq _ _ _
  have h1 : k.detachFirst p = { k with
      proc := (k.detachFirst p).proc
      hashList := fun i => (k.hashList i).erase p
      procList := k.procList.erase p } := modSome_eq _ _ _
  rw [reaped, h3, h2, h1]

end Kern

theorem reaped_reaped (k : Kern) (p q : Nat) : Reaped k (k.reaped p q) p q := by
  have hrest := Kern.reaped_eq k p q
  refine ⟨?_, ?_, ?_, ?_, fun i => ?_, ?_, ?_, ?_, Kern.reaped_field _ (fun _ _ _ _ => rfl) k p q,
    Kern.reaped_field _ (fun _ _ _ _ => rfl) k p q, fun c => ?_, fun c _ => Kern.reaped_optr k p q c,
    fun c _ => Kern.reaped_yptr k p q c, fun c _ => Kern.reaped_cptr k p q c⟩
  case refine_9 => rw [Kern.reaped_field ProcStruct.state (fun _ _ _ _ => rfl) k p q c]
  all_goals rw [hrest]

theorem removeLinks_run (hparent : (k.proc p).parent = some q) :
    removeLinks p { k with hashList := fun i => (k.hashList i).erase p } =
      .ok () { k.detached p q with nrProcess := k.nrProcess - 1 } := by
  have hy : ((k.detachFirst p).proc p).yptr = (k.proc p).yptr := by
    refine (Kern.modSome_set ProcStruct.yptr (by exact fun _ => rfl) _ _ p).trans ?_
    split <;> rfl
  have ho : ((k.detachFirst p).proc p).optr = (k.proc p).optr :=
    Kern.modSome_field ProcStruct.optr (by exact fun _ => rfl) _ _ p
  have hpa : ((k.detachFirst p).proc p).parent = some q :=
    (Kern.modSome_field ProcStruct.parent (by exact fun _ => rfl) _ _ p).trans hparent
  have hnr : (k.detachFirst p).nrProcess = k.nrProcess := Kern.modSome_nrProcess _ _ _
  have hnr' : (k.detached p q).nrProcess = k.nrProcess :=
    (Kern.modSome_nrProcess _ _ _).trans ((Kern.modSome_nrProcess _ _ _).trans hnr)
  rw [removeLinks, Proc.modify_bind]
  refine (Proc.bind_ok (?_ : Proc.modify _ _ = .ok () (k.detachFirst p))).trans ?_
  · rfl
  rw [Proc.get_bind, hy, ho, hpa]
  -- the elder sibling is linked to the younger one, or becomes the first child
  cases hyptr : (k.proc p).yptr with
  | none =>
    have hdet : k.detached p q = (k.detachFirst p).modProc q fun x => { x with cptr := (k.proc p).optr } := by
      rw [Kern.detached, Kern.detachSecond, hyptr, if_pos rfl]
      rfl
    rw [← hnr', hdet]
    rfl
  | some y =>
    have hdet : k.detached p q = (k.detachFirst p).modProc y fun x => { x with optr := (k.proc p).optr } := by
      rw [Kern.detached, Kern.detachSecond, hyptr, if_neg fun heq => nomatch heq]
      rfl
    rw [← hnr', hdet]
    rfl

theorem waitFound_run (hp : p ≠ k.idleproc ∧ p ≠ k.initproc) (hparent : (k.proc p).parent = some q) :
    waitFound p k = .ok (k.proc p).exitCode (k.reaped p q) := by
  have hlive : (k.detached p q).live = k.live :=
    (Kern.modSome_live _ _ _).trans ((Kern.modSome_live _ _ _).trans (Kern.modSome_live _ _ _))
  rw [waitFound, Proc.get_bind, Proc.check_bind_pos hp, unhashProc, Proc.modify_bind]
  refine (Proc.bind_ok (removeLinks_run hparent)).trans ?_
  rw [Kern.reaped, ← hlive]
  rfl

/-- **A zombie is gone**, and nobody misses it. -/
theorem KernInv.reap (h : KernInv k b) (hs : ∀ c, (k'.proc c).state = (k.proc c).state)
    (hws : ∀ c, (k'.proc c).waitState = (k.proc c).waitState) (hqueued : ∀ c, (k'.proc c).queued = (k.proc c).queued)
    (hlive : k'.live = k.live.erase p) (hcur : k'.current = k.current) (hidle : k'.idleproc = k.idleproc)
    (hinit : k'.initproc = k.initproc) (hlist : k'.runList = k.runList) (hnum : k'.procNum = k.procNum)
    (htimers : k'.timerList = k.timerList) (hvalue : k'.semValue = k.semValue) (hqueue : k'.waitQueue = k.waitQueue)
    (hwait : k'.wait = k.wait) (hp : p ∈ k.live) (hz : (k.proc p).state = .zombie) (hpc : p ≠ k.current) :
    KernInv k' b := by
  have hb : b p = some .exit := (h.waits p hp).zombie.mp hz
  have hpidle : k.idleproc ≠ p := by
    rintro rfl
    exact ProcState.noConfusion (hz.symm.trans h.awake_idle.1)
  have hpinit : k.initproc ≠ p := fun heq => h.init.2 (heq ▸ hb)
  refine ⟨⟨?_, ?_, ?_, fun c => ?_, fun c hmem => ?_, ?_⟩, ⟨?_, fun q c hmem => ?_, fun t hmem => ?_, ?_, ?_, ?_⟩,
    fun c hc => ?_, ?_, ?_⟩
  · rw [hidle, hlive]
    exact Finset.mem_erase.mpr ⟨hpidle, h.run.idle⟩
  · rw [hcur, hlive]
    exact Finset.mem_erase.mpr ⟨hpc.symm, h.run.current⟩
  · rw [hlist]
    exact h.run.nodup
  · rw [hlist, hlive, hs, hcur, hidle, Finset.mem_erase, h.run.mem c]
    refine ⟨fun hand => ⟨⟨?_, hand.1⟩, hand.2⟩, fun hand => ⟨hand.1.2, hand.2⟩⟩
    rintro rfl
    exact ProcState.noConfusion (hz.symm.trans hand.2.1)
  · rw [hqueued]
    exact h.run.queued c (hlist ▸ hmem)
  · rw [hnum, hlist]
    exact h.run.num
  · rw [hqueue]
    exact h.queue.nodup
  · rw [hqueue] at hmem
    obtain ⟨hc, hof, hw⟩ := h.queue.mem q c hmem
    rw [hlive, hwait]
    refine ⟨Finset.mem_erase.mpr ⟨?_, hc⟩, hof, hw⟩
    rintro rfl
    exact h.queued_alive hmem hz
  · rw [htimers] at hmem
    obtain ⟨hc, hlink, hsleep⟩ := h.queue.timer t hmem
    rw [hlive]
    refine ⟨Finset.mem_erase.mpr ⟨fun heq => ?_, hc⟩, hlink, hsleep⟩
    rw [heq, hb] at hsleep
    exact nomatch hsleep
  · rw [htimers]
    exact h.queue.links
  · rw [hvalue]
    exact h.queue.value
  · rw [hvalue, hqueue]
    exact h.queue.empty
  · rw [hlive] at hc
    refine (h.waits c (Finset.mem_of_mem_erase hc)).congr (hs c) (hws c) (by rw [hwait]) fun i => ?_
    rw [hqueue]
  · rw [hidle]
    exact h.idle
  · rw [hinit, hlive]
    exact ⟨Finset.mem_erase.mpr ⟨hpinit, h.init.1⟩, h.init.2⟩

/-! ## `do_wait` -/

/-- What `do_wait` leaves alone when it reaps a child. -/
structure ReapRest (k k' : Kern) : Prop where
  current : k'.current = k.current
  sems : SameSems k k'
  exitCode : ∀ c, (k'.proc c).exitCode = (k.proc c).exitCode
  waiting : ∀ c, Asleep k' c wtChild → Asleep k c wtChild

/-- What it leaves alone when it has to wait. -/
structure WaitRest (k k' : Kern) : Prop where
  tree : SameTree k k'
  current : k'.current = k.current
  sems : SameSems k k'
  waiting : ∀ c, Asleep k' c wtChild → c = k.current ∨ Asleep k c wtChild

/-- **`do_wait`** up to its `schedule`, or to its end. -/
theorem doWait_spec (h : KernInv k b) (ht : TreeInv none k) (hfree : KernInv.Free k) (hawake : Awake k k.current)
    (hidle : k.current ≠ k.idleproc) (pid : Int) :
    doWait pid k = .err (-eBadProc) k ∨
    (∃ k', doWait pid k = .ok none k' ∧ KernInv k' (Function.update b k.current (some (.wait pid))) ∧ TreeInv none k' ∧
      WaitRest k k' ∧ LookOk k pid .none) ∨
    ∃ p k', doWait pid k = .ok (some (p, (k.proc p).exitCode)) k' ∧ KernInv k' b ∧ TreeInv none k' ∧
      Reaped k k' p k.current ∧ ReapRest k k' ∧ LookOk k pid (.found p) := by
  obtain ⟨look, hrun, hlook⟩ := waitLook_spec ht h.run.current pid
  rw [doWait, Proc.bind_ok hrun]
  cases look with
  | bad => exact .inl rfl
  | none =>
    let f : ProcStruct → ProcStruct := fun x => { x with state := .sleeping, waitState := wtChild }
    have hself : (k.modProc k.current f).proc k.current = f (k.proc k.current) := Kern.modProc_self k k.current f
    have hother : ∀ c, c ≠ k.current → (k.modProc k.current f).proc c = k.proc c := fun c hc => Kern.modProc_other k f hc
    have hasleep : Asleep (k.modProc k.current f) k.current wtChild := by
      rw [Asleep, hself]
      exact ⟨rfl, rfl⟩
    have hresched : Kern.Rescheduled k (k.modProc k.current f) := .modProc (fun _ => rfl) k _
    have htree : SameTree k (k.modProc k.current f) := by
      refine SameFamily.tree_of_rescheduled hresched fun c => ?_
      by_cases hc : c = k.current
      · rw [hc, hasleep.1, hawake.1]
        exact ⟨fun heq => (by cases heq), fun heq => (by cases heq)⟩
      · rw [hother c hc]
    refine .inr (.inl ⟨k.modProc k.current f, rfl, ?_, ht.congr htree, ⟨htree, rfl, .of_rescheduled hresched, fun c ha => ?_⟩,
      hlook⟩)
    · exact h.settle hfree (fun _ he => ProcState.noConfusion he) (.inl hasleep) hidle fun he => by cases he
    · by_cases hc : c = k.current
      · exact .inl hc
      · rw [Asleep, hother c hc] at ha
        exact .inr ha
  | found p =>
    obtain ⟨hchild, hz, hpid⟩ := hlook
    have hpidle : p ≠ k.idleproc := by
      rintro rfl
      cases ht.idleLinks.1.symm.trans hchild.2
    have hpinit : p ≠ k.initproc := by
      rintro rfl
      exact hidle (Option.some.inj (hchild.2.symm.trans (ht.init.2.resolve_left hpidle)))
    have hpc : p ≠ k.current := by
      rintro rfl
      exact ProcState.noConfusion (hz.symm.trans hawake.1)
    have hreaped := reaped_reaped k p k.current
    have hrest := Kern.reaped_eq k p k.current
    have hfield : ∀ {α : Type} (g : ProcStruct → α), (∀ x (cp yp op : Option Nat),
        g { x with cptr := cp, yptr := yp, optr := op } = g x) → ∀ c,
        g ((k.reaped p k.current).proc c) = g (k.proc c) := fun g hg c => Kern.reaped_field g hg k p k.current c
    have hs := hfield ProcStruct.state fun _ _ _ _ => rfl
    have hws := hfield ProcStruct.waitState fun _ _ _ _ => rfl
    refine .inr (.inr ⟨p, k.reaped p k.current, ?_, ?_, ht.reap hreaped hchild h.run.current hpinit hz, hreaped, ?_,
      hchild, hz, hpid⟩)
    · exact (Proc.bind_ok (waitFound_run ⟨hpidle, hpinit⟩ hchild.2)).trans rfl
    · refine h.reap (p := p) hs hws (hfield _ fun _ _ _ _ => rfl) hreaped.live ?_ hreaped.idleproc hreaped.initproc ?_ ?_ ?_ ?_
        ?_ ?_ hchild.1 hz hpc
      all_goals rw [hrest]
    · refine ⟨?_, ⟨?_, fun i => ?_⟩, hfield _ fun _ _ _ _ => rfl, fun c ha => ⟨(hs c).symm.trans ha.1, (hws c).symm.trans ha.2⟩⟩
      all_goals rw [hrest]

end Ucore
