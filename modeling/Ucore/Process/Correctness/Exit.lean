import Ucore.Process.Correctness.Fork

/-!
# `Process.Correctness.Exit` — `do_exit`

The process becomes a zombie, its parent is woken if it waits for a child, and its children go to `initproc`, which is
woken if one of them is a zombie.
-/

namespace Ucore

variable {k k' k1 k2 : Kern} {b : Nat → Option Blocked} {p q c : Nat} {l : List Nat} {code : Int} {o : Option Blocked}

/-! ## Those who wait for a child -/

/-- Only `do_wait` sets `WT_CHILD`. -/
theorem Waits.of_child (h : Waits k p o) (hws : (k.proc p).waitState = wtChild) :
    Asleep k p wtChild ∧ ∃ pid, o = some (.wait pid) := by
  have hno : ¬ Awake k p := fun ha => absurd (ha.2.symm.trans hws) (by decide)
  match o, h with
  | none, h => exact absurd h hno
  | some .yield, h => exact absurd h hno
  | some (.down i), .inl h => exact absurd (h.1.2.symm.trans hws) (by decide)
  | some (.down i), .inr h => exact absurd h.1 hno
  | some (.wait pid), h => exact ⟨h.resolve_right hno, pid, rfl⟩
  | some .sleep, h => exact absurd ((h.resolve_right hno).2.symm.trans hws) (by decide)
  | some (.read _), h => exact absurd ((h.resolve_right hno).2.symm.trans hws) (by decide)
  | some .exit, h => exact absurd (h.2.symm.trans hws) (by decide)

/-- A process is woken if it waits for a child. -/
def Kern.childWoke (k : Kern) (p : Nat) : Kern := if (k.proc p).waitState = wtChild then k.woke p else k

namespace KernInv

theorem childWoke_run (h : KernInv k b) (hlive : p ∈ k.live) :
    (if (k.proc p).waitState = wtChild then wakeupProc p else pure () : KernM Unit) k = .ok () (k.childWoke p) := by
  rw [Kern.childWoke]
  split
  · next hws =>
    have hasleep := ((h.waits p hlive).of_child hws).1
    exact h.run.wakeupProc_run fun hz => ProcState.noConfusion (hasleep.1.symm.trans hz)
  · rfl

theorem childWoke (h : KernInv k b) (hlive : p ∈ k.live) : KernInv (k.childWoke p) b := by
  rw [Kern.childWoke]
  split
  · next hws =>
    obtain ⟨-, pid, hb⟩ := (h.waits p hlive).of_child hws
    exact h.woke hlive (fun i he => nomatch hb.symm.trans he) fun he => nomatch hb.symm.trans he
  · exact h

theorem quiet_childWoke (h : KernInv k b) (hlive : p ∈ k.live) : Quiet k (k.childWoke p) := by
  rw [Kern.childWoke]
  split
  · next hws =>
    have hasleep := ((h.waits p hlive).of_child hws).1
    exact .woke fun hz => ProcState.noConfusion (hasleep.1.symm.trans hz)
  · exact .refl k

end KernInv

theorem not_asleep_childWoke (k : Kern) (p : Nat) : ¬ Asleep (k.childWoke p) p wtChild := by
  rw [Kern.childWoke]
  split
  · exact fun ha => ProcState.noConfusion (Kern.woke_state.symm.trans ha.1)
  · next hws => exact fun ha => hws ha.2

/-! ## One child -/

namespace Kern

def adoptFirst (k : Kern) (p : Nat) : Kern := k.modProc k.current fun x => { x with cptr := (k.proc p).optr }

def adoptSecond (k : Kern) (p : Nat) : Kern := (k.adoptFirst p).modProc p fun x =>
  { x with yptr := none, optr := (k.proc k.initproc).cptr }

def adoptThird (k : Kern) (p : Nat) : Kern := (k.adoptSecond p).modSome (k.proc k.initproc).cptr fun x =>
  { x with yptr := some p }

def adoptFourth (k : Kern) (p : Nat) : Kern := (k.adoptThird p).modProc p fun x => { x with parent := some k.initproc }

/-- A round of the loop of `do_exit`, before `initproc` is woken. -/
def adopted (k : Kern) (p : Nat) : Kern := (k.adoptFourth p).modProc k.initproc fun x => { x with cptr := some p }

theorem adopted_field {α : Type} (g : ProcStruct → α) (hg : ∀ x (pa cp yp op : Option Nat),
    g { x with parent := pa, cptr := cp, yptr := yp, optr := op } = g x) (k : Kern) (p c : Nat) :
    g ((k.adopted p).proc c) = g (k.proc c) := by
  have h5 : g ((k.adopted p).proc c) = g ((k.adoptFourth p).proc c) :=
    modProc_field g (fun x => hg x x.parent (some p) x.yptr x.optr) _ _ c
  have h4 : g ((k.adoptFourth p).proc c) = g ((k.adoptThird p).proc c) :=
    modProc_field g (fun x => hg x (some k.initproc) x.cptr x.yptr x.optr) _ _ c
  have h3 : g ((k.adoptThird p).proc c) = g ((k.adoptSecond p).proc c) :=
    modSome_field g (fun x => hg x x.parent x.cptr (some p) x.optr) _ _ c
  have h2 : g ((k.adoptSecond p).proc c) = g ((k.adoptFirst p).proc c) :=
    modProc_field g (fun x => hg x x.parent x.cptr none (k.proc k.initproc).cptr) _ _ c
  have h1 : g ((k.adoptFirst p).proc c) = g (k.proc c) :=
    modProc_field g (fun x => hg x x.parent (k.proc p).optr x.yptr x.optr) _ _ c
  exact h5.trans (h4.trans (h3.trans (h2.trans h1)))

theorem adopted_parent (k : Kern) (p c : Nat) :
    ((k.adopted p).proc c).parent = if c = p then some k.initproc else (k.proc c).parent := by
  have h5 : ((k.adopted p).proc c).parent = ((k.adoptFourth p).proc c).parent :=
    modProc_field ProcStruct.parent (by exact fun _ => rfl) _ _ c
  have h4 : ((k.adoptFourth p).proc c).parent = if c = p then some k.initproc else ((k.adoptThird p).proc c).parent :=
    modProc_set ProcStruct.parent (by exact fun _ => rfl) _ _ c
  have h3 : ((k.adoptThird p).proc c).parent = ((k.adoptSecond p).proc c).parent :=
    modSome_field ProcStruct.parent (by exact fun _ => rfl) _ _ c
  have h2 : ((k.adoptSecond p).proc c).parent = ((k.adoptFirst p).proc c).parent :=
    modProc_field ProcStruct.parent (by exact fun _ => rfl) _ _ c
  have h1 : ((k.adoptFirst p).proc c).parent = (k.proc c).parent :=
    modProc_field ProcStruct.parent (by exact fun _ => rfl) _ _ c
  exact h5.trans (h4.trans (by rw [h3, h2, h1]))

theorem adopted_optr (k : Kern) (p c : Nat) :
    ((k.adopted p).proc c).optr = if c = p then (k.proc k.initproc).cptr else (k.proc c).optr := by
  have h5 : ((k.adopted p).proc c).optr = ((k.adoptFourth p).proc c).optr :=
    modProc_field ProcStruct.optr (by exact fun _ => rfl) _ _ c
  have h4 : ((k.adoptFourth p).proc c).optr = ((k.adoptThird p).proc c).optr :=
    modProc_field ProcStruct.optr (by exact fun _ => rfl) _ _ c
  have h3 : ((k.adoptThird p).proc c).optr = ((k.adoptSecond p).proc c).optr :=
    modSome_field ProcStruct.optr (by exact fun _ => rfl) _ _ c
  have h2 : ((k.adoptSecond p).proc c).optr = if c = p then (k.proc k.initproc).cptr else ((k.adoptFirst p).proc c).optr :=
    modProc_set ProcStruct.optr (by exact fun _ => rfl) _ _ c
  have h1 : ((k.adoptFirst p).proc c).optr = (k.proc c).optr :=
    modProc_field ProcStruct.optr (by exact fun _ => rfl) _ _ c
  exact h5.trans (h4.trans (h3.trans (h2.trans (by rw [h1]))))

theorem adopted_yptr (k : Kern) (p c : Nat) : ((k.adopted p).proc c).yptr =
    if (k.proc k.initproc).cptr = some c then some p else if c = p then none else (k.proc c).yptr := by
  have h5 : ((k.adopted p).proc c).yptr = ((k.adoptFourth p).proc c).yptr :=
    modProc_field ProcStruct.yptr (by exact fun _ => rfl) _ _ c
  have h4 : ((k.adoptFourth p).proc c).yptr = ((k.adoptThird p).proc c).yptr :=
    modProc_field ProcStruct.yptr (by exact fun _ => rfl) _ _ c
  have h3 : ((k.adoptThird p).proc c).yptr =
      if (k.proc k.initproc).cptr = some c then some p else ((k.adoptSecond p).proc c).yptr :=
    modSome_set ProcStruct.yptr (by exact fun _ => rfl) _ _ c
  have h2 : ((k.adoptSecond p).proc c).yptr = if c = p then none else ((k.adoptFirst p).proc c).yptr :=
    modProc_set ProcStruct.yptr (by exact fun _ => rfl) _ _ c
  have h1 : ((k.adoptFirst p).proc c).yptr = (k.proc c).yptr :=
    modProc_field ProcStruct.yptr (by exact fun _ => rfl) _ _ c
  exact h5.trans (h4.trans (h3.trans (by rw [h2, h1])))

theorem adopted_cptr (k : Kern) (p c : Nat) : ((k.adopted p).proc c).cptr =
    if c = k.initproc then some p else if c = k.current then (k.proc p).optr else (k.proc c).cptr := by
  have h5 : ((k.adopted p).proc c).cptr = if c = k.initproc then some p else ((k.adoptFourth p).proc c).cptr :=
    modProc_set ProcStruct.cptr (by exact fun _ => rfl) _ _ c
  have h4 : ((k.adoptFourth p).proc c).cptr = ((k.adoptThird p).proc c).cptr :=
    modProc_field ProcStruct.cptr (by exact fun _ => rfl) _ _ c
  have h3 : ((k.adoptThird p).proc c).cptr = ((k.adoptSecond p).proc c).cptr :=
    modSome_field ProcStruct.cptr (by exact fun _ => rfl) _ _ c
  have h2 : ((k.adoptSecond p).proc c).cptr = ((k.adoptFirst p).proc c).cptr :=
    modProc_field ProcStruct.cptr (by exact fun _ => rfl) _ _ c
  have h1 : ((k.adoptFirst p).proc c).cptr = if c = k.current then (k.proc p).optr else (k.proc c).cptr :=
    modProc_set ProcStruct.cptr (by exact fun _ => rfl) _ _ c
  exact h5.trans (by rw [h4, h3, h2, h1])

theorem adopted_eq (k : Kern) (p : Nat) : k.adopted p = { k with proc := (k.adopted p).proc } := by
  rw [adopted, adoptFourth, adoptThird]
  exact congrArg (fun k1 : Kern => (k1.modProc p fun x => { x with parent := some k.initproc }).modProc k.initproc
    fun x => { x with cptr := some p }) (modSome_eq _ _ _)

end Kern

theorem sameSched_adopted (k : Kern) (p : Nat) : SameSched k (k.adopted p) := by
  have hrest := Kern.adopted_eq k p
  refine ⟨Kern.adopted_field _ (fun _ _ _ _ _ => rfl) k p, Kern.adopted_field _ (fun _ _ _ _ _ => rfl) k p,
    Kern.adopted_field _ (fun _ _ _ _ _ => rfl) k p, ?_, ?_, ?_, ?_, ?_, ?_, ?_, ?_, ?_, ?_⟩
  all_goals rw [hrest]

theorem adopted_adopted (k : Kern) (p : Nat) : Adopted k (k.adopted p) p k.current := by
  have hrest := Kern.adopted_eq k p
  refine ⟨?_, ?_, ?_, ?_, ?_, ?_, ?_, ?_, Kern.adopted_field _ (fun _ _ _ _ _ => rfl) k p, fun c => ?_, Kern.adopted_parent k p,
    Kern.adopted_optr k p, Kern.adopted_yptr k p, Kern.adopted_cptr k p⟩
  case refine_9 => rw [Kern.adopted_field ProcStruct.state (fun _ _ _ _ _ => rfl) k p c]
  all_goals rw [hrest]

theorem exitChild_run (hci : k.current ≠ k.initproc) : exitChild p k =
    (if ((k.adopted p).proc p).state = .zombie ∧ ((k.adopted p).proc (k.adopted p).initproc).waitState = wtChild then
      wakeupProc (k.adopted p).initproc else pure () : KernM Unit) (k.adopted p) := by
  have hfirst : ((k.adoptFirst p).proc k.initproc).cptr = (k.proc k.initproc).cptr := by
    rw [Kern.adoptFirst, Kern.modProc_other k _ hci.symm]
  have hsecond : ((k.adoptSecond p).proc k.initproc).cptr = (k.proc k.initproc).cptr :=
    (Kern.modProc_field ProcStruct.cptr (by exact fun _ => rfl) (k.adoptFirst p) p k.initproc).trans hfirst
  have hthird : (k.adoptThird p).initproc = k.initproc := by
    rw [Kern.adoptThird, Kern.modSome_eq]
    rfl
  rw [exitChild]
  refine (Proc.bind_ok (?_ : Proc.modify _ k = .ok () (k.adoptFirst p))).trans ?_
  · rfl
  refine (Proc.bind_ok (?_ : Proc.modify _ (k.adoptFirst p) = .ok () (k.adoptSecond p))).trans ?_
  · rw [Kern.adoptSecond, ← hfirst]
    rfl
  refine (Proc.bind_ok (?_ : Proc.modify _ (k.adoptSecond p) = .ok () (k.adoptThird p))).trans ?_
  · rw [Kern.adoptThird, ← hsecond]
    rfl
  refine (Proc.bind_ok (?_ : Proc.modify _ (k.adoptThird p) = .ok () (k.adoptFourth p))).trans ?_
  · rw [Kern.adoptFourth, ← hthird]
    rfl
  refine (Proc.bind_ok (?_ : Proc.modify _ (k.adoptFourth p) = .ok () (k.adopted p))).trans rfl
  rw [Kern.adopted, ← hthird]
  rfl

/-- The processes `l` have been given to `initproc`, which is awake if there is a zombie among them. -/
structure Given (k k' : Kern) (l : List Nat) : Prop where
  current : k'.current = k.current
  live : k'.live = k.live
  idleproc : k'.idleproc = k.idleproc
  initproc : k'.initproc = k.initproc
  sems : SameSems k k'
  pid : ∀ c, (k'.proc c).pid = (k.proc c).pid
  exitCode : ∀ c, (k'.proc c).exitCode = (k.proc c).exitCode
  zombie : ∀ c, (k'.proc c).state = .zombie ↔ (k.proc c).state = .zombie
  parent : ∀ c, (k'.proc c).parent = if c ∈ l then some k.initproc else (k.proc c).parent
  waiting : ∀ c, Asleep k' c wtChild → Asleep k c wtChild ∧
    (c = k.initproc → ∀ d ∈ l, (k.proc d).state ≠ .zombie)

theorem Given.cons (h : Given k k1 [p]) (h' : Given k1 k2 l) : Given k k2 (p :: l) where
  current := h'.current.trans h.current
  live := h'.live.trans h.live
  idleproc := h'.idleproc.trans h.idleproc
  initproc := h'.initproc.trans h.initproc
  sems := h.sems.trans h'.sems
  pid c := (h'.pid c).trans (h.pid c)
  exitCode c := (h'.exitCode c).trans (h.exitCode c)
  zombie c := (h'.zombie c).trans (h.zombie c)
  parent c := by
    rw [h'.parent, h.parent, h.initproc]
    by_cases hl : c ∈ l
    · rw [if_pos hl, if_pos (List.mem_cons_of_mem p hl)]
    · rw [if_neg hl]
      by_cases hp : c = p
      · rw [if_pos (List.mem_singleton.mpr hp), if_pos (List.mem_cons.mpr (.inl hp))]
      · rw [if_neg fun hmem => hp (List.mem_singleton.mp hmem),
          if_neg fun hmem => (List.mem_cons.mp hmem).elim hp hl]
  waiting c ha := by
    obtain ⟨ha1, hl⟩ := h'.waiting c ha
    obtain ⟨ha0, hp⟩ := h.waiting c ha1
    refine ⟨ha0, fun hc d hd => ?_⟩
    rcases List.mem_cons.mp hd with rfl | hd
    · exact hp hc d List.mem_cons_self
    · exact fun hz => hl (hc.trans h.initproc.symm) d hd ((h.zombie d).mpr hz)

/-- **A round of the loop** of `do_exit`. -/
theorem exitChild_spec (h : KernInv k b) (ht : TreeInv (some k.current) k) (hci : k.current ≠ k.initproc)
    (hidle : k.current ≠ k.idleproc) (hhead : (k.proc k.current).cptr = some p) :
    ∃ k', exitChild p k = .ok () k' ∧ KernInv k' b ∧ TreeInv (some k.current) k' ∧ Given k k' [p] := by
  have hinit := h.init
  have hz : (k.proc k.initproc).state ≠ .zombie := fun hz => hinit.2 ((h.waits _ hinit.1).zombie.mp hz)
  have hadopted := adopted_adopted k p
  have h1 : KernInv (k.adopted p) b := h.congr (sameSched_adopted k p)
  have ht1 : TreeInv (some k.current) (k.adopted p) := ht.adopt hadopted h.run.current hci hidle hz hhead
  have hinit1 : (k.adopted p).initproc ∈ (k.adopted p).live := h1.init.1
  have hcur1 : (k.adopted p).current = k.current := (sameSched_adopted k p).current
  have hstate : ∀ c, ((k.adopted p).proc c).state = (k.proc c).state := (sameSched_adopted k p).state
  have hws : ∀ c, ((k.adopted p).proc c).waitState = (k.proc c).waitState := (sameSched_adopted k p).waitState
  have hsems : SameSems k (k.adopted p) :=
    ⟨(sameSched_adopted k p).semValue, fun i => congrFun (sameSched_adopted k p).waitQueue (.sem i)⟩
  have hparent : ∀ c, ((k.adopted p).proc c).parent = if c ∈ [p] then some k.initproc else (k.proc c).parent := by
    intro c
    rw [hadopted.parent]
    simp only [List.mem_singleton]
  have hasleep : ∀ c, Asleep (k.adopted p) c wtChild → Asleep k c wtChild := fun c ha =>
    ⟨(hstate c).symm.trans ha.1, (hws c).symm.trans ha.2⟩
  have hexit : ∀ c, ((k.adopted p).proc c).exitCode = (k.proc c).exitCode :=
    Kern.adopted_field ProcStruct.exitCode (fun _ _ _ _ _ => rfl) k p
  rw [exitChild_run hci]
  by_cases hzombie : (k.proc p).state = .zombie
  · -- `initproc` has to be awake
    have hquiet := h1.quiet_childWoke hinit1
    refine ⟨(k.adopted p).childWoke (k.adopted p).initproc, ?_, h1.childWoke hinit1, ht1.congr hquiet.family.toSameTree, ?_⟩
    · rw [hstate, ← h1.childWoke_run hinit1]
      simp only [hzombie, true_and]
    · refine ⟨hquiet.current.trans hcur1, hquiet.family.live.trans hadopted.live,
        hquiet.family.idleproc.trans hadopted.idleproc, hquiet.family.initproc.trans hadopted.initproc,
        hsems.trans hquiet.sems, fun c => (hquiet.family.pid c).trans (hadopted.pid c),
        fun c => (hquiet.family.exitCode c).trans (hexit c), fun c => (hquiet.family.zombie c).trans (hadopted.state c),
        fun c => (hquiet.family.parent c).trans (hparent c), fun c ha => ?_⟩
      refine ⟨hasleep c (hquiet.family.waiting c ha), fun hc => ?_⟩
      rw [hc, ← hadopted.initproc] at ha
      exact absurd ha (not_asleep_childWoke _ _)
  · refine ⟨k.adopted p, ?_, h1, ht1, hcur1, hadopted.live, hadopted.idleproc, hadopted.initproc, hsems, hadopted.pid,
      hexit, hadopted.state, hparent, fun c ha => ⟨hasleep c ha, fun _ d hd => ?_⟩⟩
    · rw [if_neg fun hand => hzombie ((hstate p).symm.trans hand.1)]
      rfl
    · rw [List.mem_singleton.mp hd]
      exact hzombie

theorem Given.congr {l' : List Nat} (h : Given k k' l) (hmem : ∀ c, c ∈ l' ↔ c ∈ l) : Given k k' l' where
  current := h.current
  live := h.live
  idleproc := h.idleproc
  initproc := h.initproc
  sems := h.sems
  pid := h.pid
  exitCode := h.exitCode
  zombie := h.zombie
  parent c := by
    rw [h.parent]
    simp only [hmem]
  waiting c ha := ⟨(h.waiting c ha).1, fun hc d hd => (h.waiting c ha).2 hc d ((hmem d).mp hd)⟩

/-- **The loop** of `do_exit`. -/
theorem exitChildren_spec : ∀ (fuel : Nat) (k : Kern) (y : Option Nat) (l : List Nat), KernInv k b →
    TreeInv (some k.current) k → k.current ≠ k.initproc → k.current ≠ k.idleproc → k.Kids y k.current l → l.length < fuel →
    ∃ k', exitChildren fuel k = .ok () k' ∧ KernInv k' b ∧ TreeInv none k' ∧ Given k k' l
  | 0, _, _, _, _, _, _, _, _, hfuel => absurd hfuel (Nat.not_lt_zero _)
  | fuel + 1, k, y, [], h, ht, _, _, hkids, _ => by
    have hnone : (k.proc k.current).cptr = none := hkids.chained.nil_iff.mpr rfl
    refine ⟨k, ?_, h, ht.childless hnone, rfl, rfl, rfl, rfl, ⟨rfl, fun _ => rfl⟩, fun _ => rfl, fun _ => rfl,
      fun _ => Iff.rfl, fun c => ?_, fun c ha => ⟨ha, fun _ d hd => absurd hd List.not_mem_nil⟩⟩
    · rw [exitChildren, Proc.get_bind, hnone]
      rfl
    · rw [if_neg List.not_mem_nil]
  | fuel + 1, k, y, p :: l, h, ht, hci, hidle, hkids, hfuel => by
    have hhead : (k.proc k.current).cptr = some p := hkids.chained.1
    obtain ⟨k1, hrun1, h1, ht1, hgiven⟩ := exitChild_spec h ht hci hidle hhead
    obtain ⟨hnot, hnodup⟩ := List.nodup_cons.mp hkids.nodup
    rw [← hgiven.current] at ht1
    obtain ⟨y1, l1, -, hkids1⟩ := ht1.kids k1.current h1.run.current
    -- the others are still its children
    have hmem : ∀ c, c ∈ l ↔ c ∈ l1 := by
      intro c
      rw [hkids1.mem c, Kern.IsChild, hgiven.live, hgiven.parent, hgiven.current]
      have hold := hkids.mem c
      by_cases hc : c = p
      · rw [if_pos (List.mem_singleton.mpr hc)]
        exact iff_of_false (fun hin => hnot (hc ▸ hin)) fun hand => hci (Option.some.inj hand.2).symm
      · rw [if_neg fun hin => hc (List.mem_singleton.mp hin)]
        rw [List.mem_cons] at hold
        exact ⟨fun hin => hold.mp (.inr hin), fun hchild => (hold.mpr hchild).resolve_left hc⟩
    have hlength : l.length = l1.length :=
      ((List.perm_ext_iff_of_nodup hnodup hkids1.nodup).mpr hmem).length_eq
    rw [List.length_cons] at hfuel
    obtain ⟨k', hrun, hinv, htree, hgiven'⟩ := exitChildren_spec fuel k1 y1 l1 h1 ht1
      (by rw [hgiven.current, hgiven.initproc]; exact hci) (by rw [hgiven.current, hgiven.idleproc]; exact hidle) hkids1
      (by omega)
    refine ⟨k', ?_, hinv, htree, hgiven.cons (hgiven'.congr hmem)⟩
    rw [exitChildren, Proc.get_bind, hhead]
    exact (Proc.bind_ok hrun1).trans hrun

/-! ## `do_exit` -/

/-- The running process has exited, and its children belong to `initproc`. -/
structure Exited (k k' : Kern) (code : Int) : Prop where
  current : k'.current = k.current
  live : k'.live = k.live
  idleproc : k'.idleproc = k.idleproc
  initproc : k'.initproc = k.initproc
  sems : SameSems k k'
  pid : ∀ c, (k'.proc c).pid = (k.proc c).pid
  newState : (k'.proc k.current).state = .zombie
  newCode : (k'.proc k.current).exitCode = code
  exitCode : ∀ c, c ≠ k.current → (k'.proc c).exitCode = (k.proc c).exitCode
  zombie : ∀ c, c ≠ k.current → ((k'.proc c).state = .zombie ↔ (k.proc c).state = .zombie)
  parent : ∀ c ∈ k.live, (k'.proc c).parent = if (k.proc c).parent = some k.current then some k.initproc else (k.proc c).parent
  waiting : ∀ c, Asleep k' c wtChild → c ≠ k.current ∧ Asleep k c wtChild ∧ (k.proc k.current).parent ≠ some c ∧
    (c = k.initproc → ∀ d, k.IsChild k.current d → d ≠ k.current ∧ (k.proc d).state ≠ .zombie)

/-- The process has become a zombie, its parent is awake and its children are given away. -/
theorem Exited.of_given {f : ProcStruct → ProcStruct} {y : Option Nat} (hf : f = fun x => { x with state := .zombie, exitCode := code })
    (hk1 : k1 = k.modProc k.current f) (hparent : (k.proc k.current).parent = some q) (hquiet : Quiet k1 (k1.childWoke q))
    (hkids : (k1.childWoke q).Kids y (k1.childWoke q).current l) (hgiven : Given (k1.childWoke q) k' l) : Exited k k' code := by
  have hself : (k1.proc k.current).state = .zombie ∧ (k1.proc k.current).exitCode = code := by
    rw [hk1, Kern.modProc_self, hf]
    exact ⟨rfl, rfl⟩
  have hother : ∀ c, c ≠ k.current → k1.proc c = k.proc c := by
    rw [hk1]
    exact fun c hc => Kern.modProc_other k f hc
  have hfield : ∀ {α : Type} (g : ProcStruct → α), (∀ x, g (f x) = g x) → ∀ c, g (k1.proc c) = g (k.proc c) := by
    rw [hk1]
    exact fun g hg c => Kern.modProc_field g hg k k.current c
  have hparents : ∀ c, (k1.proc c).parent = (k.proc c).parent := hfield ProcStruct.parent fun _ => by rw [hf]
  have hpids : ∀ c, (k1.proc c).pid = (k.proc c).pid := hfield ProcStruct.pid fun _ => by rw [hf]
  obtain ⟨hcur, hlive, hidle, hinit, hsems⟩ : k1.current = k.current ∧ k1.live = k.live ∧ k1.idleproc = k.idleproc ∧
      k1.initproc = k.initproc ∧ SameSems k k1 := by
    rw [hk1]
    exact ⟨rfl, rfl, rfl, rfl, rfl, fun _ => rfl⟩
  have hchild : ∀ c, c ∈ l ↔ c ∈ k.live ∧ (k.proc c).parent = some k.current := by
    intro c
    rw [hkids.mem c, Kern.IsChild, hquiet.family.live, hquiet.family.parent, hparents, hquiet.current, hlive, hcur]
  have hzombie : ∀ c, ((k1.childWoke q).proc c).state = .zombie ↔ (k1.proc c).state = .zombie := hquiet.family.zombie
  refine ⟨hgiven.current.trans (hquiet.current.trans hcur), hgiven.live.trans (hquiet.family.live.trans hlive),
    hgiven.idleproc.trans (hquiet.family.idleproc.trans hidle), hgiven.initproc.trans (hquiet.family.initproc.trans hinit),
    hsems.trans (hquiet.sems.trans hgiven.sems), fun c => ?_, ?_, ?_, fun c hc => ?_, fun c hc => ?_, fun c hc => ?_,
    fun c ha => ?_⟩
  · exact (hgiven.pid c).trans ((hquiet.family.pid c).trans (hpids c))
  · exact (hgiven.zombie _).mpr ((hzombie _).mpr hself.1)
  · exact (hgiven.exitCode _).trans ((hquiet.family.exitCode _).trans hself.2)
  · rw [hgiven.exitCode, hquiet.family.exitCode, hother c hc]
  · rw [hgiven.zombie, hzombie, hother c hc]
  · rw [hgiven.parent, hquiet.family.parent, hparents, hquiet.family.initproc, hinit]
    simp only [hchild, hc, true_and]
  · obtain ⟨ha2, hl⟩ := hgiven.waiting c ha
    have ha1 := hquiet.family.waiting c ha2
    have hc : c ≠ k.current := by
      rintro rfl
      exact ProcState.noConfusion (ha1.1.symm.trans hself.1)
    refine ⟨hc, ?_, fun heq => ?_, fun heq d hd => ?_⟩
    · rw [Asleep, hother c hc] at ha1
      exact ha1
    · obtain rfl := Option.some.inj (hparent.symm.trans heq)
      exact not_asleep_childWoke k1 q ha2
    · have hdz := hl (heq.trans (hquiet.family.initproc.trans hinit).symm) d ((hchild d).mpr hd)
      rw [ne_eq, hzombie] at hdz
      have hdne : d ≠ k.current := by
        rintro rfl
        exact hdz hself.1
      rw [hother d hdne] at hdz
      exact ⟨hdne, hdz⟩

/-- **`do_exit`** up to its `schedule`. -/
theorem doExit_spec (h : KernInv k b) (ht : TreeInv none k) (hfree : KernInv.Free k) (hawake : Awake k k.current)
    (hidle : k.current ≠ k.idleproc) (hci : k.current ≠ k.initproc) (code : Int) :
    ∃ k', doExit code k = .ok () k' ∧ KernInv k' (Function.update b k.current (some .exit)) ∧ TreeInv none k' ∧
      Exited k k' code := by
  let f : ProcStruct → ProcStruct := fun x => { x with state := .zombie, exitCode := code }
  let k1 := k.modProc k.current f
  have hself : k1.proc k.current = f (k.proc k.current) := Kern.modProc_self k k.current f
  have hother : ∀ c, c ≠ k.current → k1.proc c = k.proc c := fun c hc => Kern.modProc_other k f hc
  have hzombie : (k1.proc k.current).state = .zombie ∧ (k1.proc k.current).waitState = 0 := by
    rw [hself]
    exact ⟨rfl, hawake.2⟩
  have h1 : KernInv k1 (Function.update b k.current (some .exit)) :=
    h.settle hfree (fun _ he => ProcState.noConfusion he) hzombie hidle fun _ => hci
  have hfield : ∀ {α : Type} (g : ProcStruct → α), (∀ x, g (f x) = g x) → ∀ c, g (k1.proc c) = g (k.proc c) :=
    fun g hg c => Kern.modProc_field g hg k k.current c
  have ht1 : TreeInv (some k.current) k1 :=
    ht.exiting (hfield _ fun _ => rfl) (hfield _ fun _ => rfl) (hfield _ fun _ => rfl) (hfield _ fun _ => rfl)
      (hfield _ fun _ => rfl) (fun c hc => by rw [hother c hc]) rfl rfl rfl rfl rfl rfl rfl rfl
  obtain ⟨q, hq, hparent⟩ := ht.parent k.current h.run.current hidle
  -- the parent, and then the children
  have h2 := h1.childWoke (p := q) hq
  have hquiet := h1.quiet_childWoke (p := q) hq
  have ht2 : TreeInv (some (k1.childWoke q).current) (k1.childWoke q) := by
    rw [hquiet.current]
    exact ht1.congr hquiet.family.toSameTree
  obtain ⟨y, l, -, hkids⟩ := ht2.kids _ h2.run.current
  have hlength : l.length < (k1.childWoke q).live.card + 1 := by
    have hsub : l.toFinset ⊆ (k1.childWoke q).live := fun c hc => ((hkids.mem c).mp (List.mem_toFinset.mp hc)).1
    have hcard := Finset.card_le_card hsub
    rw [List.toFinset_card_of_nodup hkids.nodup] at hcard
    omega
  have hcur2 : (k1.childWoke q).current = k.current := hquiet.current
  have hinit2 : (k1.childWoke q).initproc = k.initproc := hquiet.family.initproc
  obtain ⟨k', hrun, hinv, htree, hgiven⟩ := exitChildren_spec _ _ y l h2 ht2 (by rw [hcur2, hinit2]; exact hci)
    (by rw [hcur2, hquiet.family.idleproc]; exact hidle) hkids hlength
  refine ⟨k', ?_, hinv, htree, ?_⟩
  · rw [doExit, Proc.get_bind, Proc.check_bind_pos hidle, Proc.check_bind_pos hci, Proc.modify_bind, Proc.get_bind]
    have hwake := h1.childWoke_run (p := q) hq
    rw [hquiet.family.live] at hrun
    have hparent1 : (k1.proc k1.current).parent = some q := (hfield ProcStruct.parent (fun _ => rfl) k.current).trans hparent
    rw [hparent1]
    dsimp only
    by_cases hws : (k1.proc q).waitState = wtChild
    · rw [if_pos hws] at hwake ⊢
      exact (Proc.bind_ok hwake).trans hrun
    · rw [Kern.childWoke, if_neg hws] at hrun
      rw [if_neg hws]
      exact hrun
  · exact Exited.of_given rfl rfl hparent hquiet hkids hgiven

/-- `idleproc` and `initproc` do not exit. -/
theorem doExit_init (hidle : k.current ≠ k.idleproc) (hci : k.current = k.initproc) (code : Int) :
    doExit code k = .panic .initExit := by
  rw [doExit, Proc.get_bind, Proc.check_bind_pos hidle]
  exact Proc.check_bind_neg (not_not_intro hci) _ _

end Ucore
