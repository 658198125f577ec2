import Mathlib.Data.Finset.Basic
import Ucore.Lib.Chained
import Ucore.Process.Correctness.GetPid
import Ucore.Process.Correctness.KernInv

/-!
# `Process.Correctness.Tree` — the relations between processes

`TreeInv` is what holds of the child lists, of `proc_list` and of the hash list. While `do_exit` gives its children away
one by one, its own list is linked from its first node on only: `x` is the process that is at it.

`Forked`, `Adopted` and `Reaped` say what the three operations do to the pointers, node by node.
-/

namespace Ucore

def Kern.IsChild (k : Kern) (q p : Nat) : Prop := p ∈ k.live ∧ (k.proc p).parent = some q

/-- The child list of `q`, with `y` in front of it. -/
structure Kern.Kids (k : Kern) (y : Option Nat) (q : Nat) (l : List Nat) : Prop where
  chained : Chained (fun p => (k.proc p).optr) (fun p => (k.proc p).yptr) y (k.proc q).cptr l
  nodup : l.Nodup
  mem : ∀ p, p ∈ l ↔ k.IsChild q p

def Kern.pids (k : Kern) : List Int := k.procList.map fun p => (k.proc p).pid

structure TreeInv (x : Option Nat) (k : Kern) : Prop where
  idle : k.idleproc ∈ k.live
  idleLinks : (k.proc k.idleproc).parent = none ∧ (k.proc k.idleproc).optr = none ∧ (k.proc k.idleproc).yptr = none
  init : k.initproc ∈ k.live ∧ (k.initproc = k.idleproc ∨ (k.proc k.initproc).parent = some k.idleproc)
  parent : ∀ p ∈ k.live, p ≠ k.idleproc → ∃ q ∈ k.live, (k.proc p).parent = some q
  kids : ∀ q ∈ k.live, ∃ y l, (x ≠ some q → y = none) ∧ k.Kids y q l
  zombie : ∀ p ∈ k.live, x ≠ some p → (k.proc p).state = .zombie → ∀ c, ¬ k.IsChild p c
  listNodup : k.procList.Nodup
  list : ∀ p, p ∈ k.procList ↔ p ∈ k.live ∧ p ≠ k.idleproc
  hashNodup : ∀ i, (k.hashList i).Nodup
  hash : ∀ i p, p ∈ k.hashList i ↔ p ∈ k.live ∧ p ≠ k.idleproc ∧ pidHashfn (k.proc p).pid = i
  num : k.nrProcess = k.live.card
  pids : PidInv k.pids { nextSafe := k.nextSafe, lastPid := k.lastPid }

variable {k k' : Kern} {x : Option Nat} {p q c : Nat} {v : PidVars} {pid : Int}

namespace TreeInv

theorem congr (h : TreeInv x k) (hs : SameTree k k') : TreeInv x k' := by
  have hchild : ∀ q p, k'.IsChild q p ↔ k.IsChild q p := fun q p => by
    rw [Kern.IsChild, Kern.IsChild, hs.live, hs.parent]
  have hpids : k'.pids = k.pids := by
    rw [Kern.pids, Kern.pids, hs.procList]
    exact List.map_congr_left fun p _ => hs.pid p
  refine ⟨?_, ?_, ?_, fun p hlive hidle => ?_, fun q hq => ?_, fun p hlive hx hz c => ?_, ?_, ?_, ?_, fun i p => ?_, ?_, ?_⟩
  · rw [hs.idleproc, hs.live]
    exact h.idle
  · rw [hs.idleproc, hs.parent, hs.optr, hs.yptr]
    exact h.idleLinks
  · rw [hs.initproc, hs.live, hs.parent, hs.idleproc]
    exact h.init
  · rw [hs.live, hs.parent]
    rw [hs.live] at hlive
    rw [hs.idleproc] at hidle
    exact h.parent p hlive hidle
  · obtain ⟨y, l, hy, hkids⟩ := h.kids q (hs.live ▸ hq)
    refine ⟨y, l, hy, ?_, hkids.nodup, fun p => (hkids.mem p).trans (hchild q p).symm⟩
    rw [hs.cptr]
    exact hkids.chained.congr (fun p _ => hs.optr p) fun p _ => hs.yptr p
  · rw [hchild]
    exact h.zombie p (hs.live ▸ hlive) hx ((hs.zombie p).mp hz) c
  · rw [hs.procList]
    exact h.listNodup
  · rw [hs.procList, hs.live, hs.idleproc]
    exact h.list
  · rw [hs.hashList]
    exact h.hashNodup
  · rw [hs.hashList, hs.live, hs.idleproc, hs.pid]
    exact h.hash i p
  · rw [hs.nrProcess, hs.live]
    exact h.num
  · rw [hpids, hs.nextSafe, hs.lastPid]
    exact h.pids

/-! ## Looking for a process -/

theorem pid_range (h : TreeInv x k) (hlive : p ∈ k.live) (hidle : p ≠ k.idleproc) :
    1 ≤ (k.proc p).pid ∧ (k.proc p).pid < maxPid :=
  h.pids.range _ (List.mem_map_of_mem ((h.list p).mpr ⟨hlive, hidle⟩))

/-- No two processes have the same pid. -/
theorem pid_inj (h : TreeInv x k) (hp : p ∈ k.live) (hpi : p ≠ k.idleproc) (hq : q ∈ k.live) (hqi : q ≠ k.idleproc)
    (heq : (k.proc p).pid = (k.proc q).pid) : p = q :=
  List.inj_on_of_nodup_map h.pids.nodup ((h.list p).mpr ⟨hp, hpi⟩) ((h.list q).mpr ⟨hq, hqi⟩) heq

/-- **`find_proc`** returns the process with the pid, if there is one. -/
theorem findProc_eq_some (h : TreeInv x k) :
    k.findProc pid = some p ↔ p ∈ k.live ∧ p ≠ k.idleproc ∧ (k.proc p).pid = pid := by
  rw [Kern.findProc]
  constructor
  · intro hfind
    split at hfind
    · have hmem := (h.hash _ p).mp (List.mem_of_find?_eq_some hfind)
      have hdec := List.find?_some hfind
      exact ⟨hmem.1, hmem.2.1, of_decide_eq_true hdec⟩
    · exact nomatch hfind
  · rintro ⟨hlive, hidle, rfl⟩
    have hrange := h.pid_range hlive hidle
    have hbound : 0 < (k.proc p).pid ∧ (k.proc p).pid < maxPid := ⟨by omega, hrange.2⟩
    rw [if_pos hbound]
    have hin : p ∈ k.hashList (pidHashfn (k.proc p).pid) := (h.hash _ p).mpr ⟨hlive, hidle, rfl⟩
    cases hfind : (k.hashList (pidHashfn (k.proc p).pid)).find? fun q => (k.proc q).pid = (k.proc p).pid with
    | none => exact absurd (decide_eq_true rfl) (List.find?_eq_none.mp hfind p hin)
    | some q =>
      have hmem := (h.hash _ q).mp (List.mem_of_find?_eq_some hfind)
      have hdec := List.find?_some hfind
      have heq : (k.proc q).pid = (k.proc p).pid := of_decide_eq_true hdec
      rw [h.pid_inj hmem.1 hmem.2.1 hlive hidle heq]

/-- The process in front of a child, and the one behind it, have the same parent. -/
theorem kids_next {y : Option Nat} {l : List Nat} (hkids : k.Kids y q l) (hp : p ∈ l) (hnext : (k.proc p).optr = some c) :
    k.IsChild q c := (hkids.mem c).mp (hkids.chained.next_mem hp hnext)

theorem kids_prev {l : List Nat} (hkids : k.Kids none q l) (hp : p ∈ l) (hprev : (k.proc p).yptr = some c) :
    k.IsChild q c := by
  rcases hkids.chained.prev_mem hp hprev with hnone | hmem
  · exact nomatch hnone
  · exact (hkids.mem c).mp hmem

theorem kids_head {y : Option Nat} {l : List Nat} (hkids : k.Kids y q l) (hhead : (k.proc q).cptr = some c) :
    k.IsChild q c := by
  have hchained := hkids.chained
  rw [hhead] at hchained
  obtain ⟨rest, rfl, -⟩ := hchained.uncons
  exact (hkids.mem c).mp List.mem_cons_self

/-- Whatever is not among the changed nodes keeps its list. -/
theorem kids_congr {y : Option Nat} {l : List Nat} (hkids : k.Kids y q l) (hcptr : (k'.proc q).cptr = (k.proc q).cptr)
    (hoptr : ∀ c ∈ l, (k'.proc c).optr = (k.proc c).optr) (hyptr : ∀ c ∈ l, (k'.proc c).yptr = (k.proc c).yptr)
    (hchild : ∀ c, k'.IsChild q c ↔ k.IsChild q c) : k'.Kids y q l := by
  refine ⟨?_, hkids.nodup, fun p => (hkids.mem p).trans (hchild p).symm⟩
  rw [hcptr]
  exact hkids.chained.congr hoptr hyptr

end TreeInv

/-! ## A new process -/

/-- `p` has become the youngest child of `q`, with the pid in `v`. -/
structure Forked (k k' : Kern) (p q : Nat) (v : PidVars) : Prop where
  live : k'.live = insert p k.live
  idleproc : k'.idleproc = k.idleproc
  initproc : k'.initproc = k.initproc
  procList : k'.procList = p :: k.procList
  hashList : k'.hashList = Function.update k.hashList (pidHashfn v.lastPid) (p :: k.hashList (pidHashfn v.lastPid))
  nrProcess : k'.nrProcess = k.nrProcess + 1
  nextSafe : k'.nextSafe = v.nextSafe
  lastPid : k'.lastPid = v.lastPid
  newParent : (k'.proc p).parent = some q
  newPid : (k'.proc p).pid = v.lastPid
  newCptr : (k'.proc p).cptr = none
  newOptr : (k'.proc p).optr = (k.proc q).cptr
  newYptr : (k'.proc p).yptr = none
  newState : (k'.proc p).state ≠ .zombie
  parent : ∀ c, c ≠ p → (k'.proc c).parent = (k.proc c).parent
  pid : ∀ c, c ≠ p → (k'.proc c).pid = (k.proc c).pid
  optr : ∀ c, c ≠ p → (k'.proc c).optr = (k.proc c).optr
  state : ∀ c, c ≠ p → ((k'.proc c).state = .zombie ↔ (k.proc c).state = .zombie)
  cptr : ∀ c, c ≠ p → (k'.proc c).cptr = if c = q then some p else (k.proc c).cptr
  yptr : ∀ c, c ≠ p → (k'.proc c).yptr = if (k.proc q).cptr = some c then some p else (k.proc c).yptr

namespace Forked

theorem isChild (hf : Forked k k' p q v) (hp : p ∉ k.live) (c d : Nat) : k'.IsChild c d ↔ k.IsChild c d ∨ (c = q ∧ d = p) := by
  rw [Kern.IsChild, Kern.IsChild, hf.live, Finset.mem_insert]
  by_cases hd : d = p
  · rw [hd, hf.newParent]
    constructor
    · rintro ⟨-, heq⟩
      exact .inr ⟨(Option.some.inj heq).symm, rfl⟩
    · rintro (⟨hlive, -⟩ | ⟨rfl, -⟩)
      · exact absurd hlive hp
      · exact ⟨.inl rfl, rfl⟩
  · rw [hf.parent d hd]
    exact ⟨fun hand => .inl ⟨hand.1.resolve_left hd, hand.2⟩, fun hor => hor.elim (fun hand => ⟨.inr hand.1, hand.2⟩)
      fun hand => absurd hand.2 hd⟩

theorem pids_eq (hf : Forked k k' p q v) (hlist : p ∉ k.procList) : k'.pids = v.lastPid :: k.pids := by
  rw [Kern.pids, hf.procList, List.map_cons, hf.newPid]
  exact congrArg _ (List.map_congr_left fun c hc => hf.pid c fun heq => hlist (heq ▸ hc))

theorem mem_hashList (hf : Forked k k' p q v) (i c : Nat) :
    c ∈ k'.hashList i ↔ c ∈ k.hashList i ∨ (c = p ∧ pidHashfn v.lastPid = i) := by
  rw [hf.hashList]
  by_cases hi : i = pidHashfn v.lastPid
  · rw [hi, Function.update_self, List.mem_cons]
    exact ⟨fun hor => hor.elim (fun heq => .inr ⟨heq, rfl⟩) .inl, fun hor => hor.elim .inr fun hand => .inl hand.1⟩
  · rw [Function.update_of_ne hi]
    exact ⟨.inl, fun hor => hor.resolve_right fun hand => hi hand.2.symm⟩

/-- The new process has no children. -/
theorem kids_new (hf : Forked k k' p q v) (h : TreeInv none k) (hp : p ∉ k.live) (hq : q ∈ k.live) : k'.Kids none p [] := by
  refine ⟨?_, .nil, fun d => ⟨fun hmem => absurd hmem List.not_mem_nil, fun hkid => ?_⟩⟩
  · rw [hf.newCptr]
    rfl
  · rcases (hf.isChild hp p d).mp hkid with ⟨hd, hpar⟩ | ⟨heq, -⟩
    · by_cases hdi : d = k.idleproc
      · rw [hdi, h.idleLinks.1] at hpar
        exact nomatch hpar
      · obtain ⟨e, he, heq⟩ := h.parent d hd hdi
        rw [hpar] at heq
        exact absurd (Option.some.inj heq ▸ he) hp
    · exact absurd (heq ▸ hq) hp

/-- The parent gets it in front of its other children. -/
theorem kids_parent (hf : Forked k k' p q v) (hp : p ∉ k.live) (hq : q ∈ k.live) {l : List Nat} (hkids : k.Kids none q l) :
    k'.Kids none q (p :: l) := by
  have hqp : q ≠ p := fun heq => hp (heq ▸ hq)
  have hmemne : ∀ d ∈ l, d ≠ p := fun d hd heq => hp (heq ▸ ((hkids.mem d).mp hd).1)
  refine ⟨?_, List.nodup_cons.mpr ⟨fun hmem => hmemne p hmem rfl, hkids.nodup⟩, fun d => ?_⟩
  · rw [hf.cptr q hqp, if_pos rfl]
    refine hkids.chained.push hkids.nodup hf.newOptr hf.newYptr (fun d hd => hf.optr d (hmemne d hd))
      (fun d hhead => ?_) fun d hd hhead => ?_
    · have hkid := TreeInv.kids_head hkids hhead
      exact (hf.yptr d fun heq => hp (heq ▸ hkid.1)).trans (if_pos hhead)
    · exact (hf.yptr d (hmemne d hd)).trans (if_neg hhead)
  · rw [List.mem_cons, hkids.mem d, hf.isChild hp]
    exact ⟨fun hor => hor.elim (fun heq => .inr ⟨rfl, heq⟩) .inl, fun hor => hor.elim .inr fun hand => .inl hand.2⟩

/-- All others keep theirs. -/
theorem kids_other (hf : Forked k k' p q v) (h : TreeInv none k) (hp : p ∉ k.live) (hq : q ∈ k.live) (hcp : c ≠ p) (hcq : c ≠ q)
    {l : List Nat} (hkids : k.Kids none c l) : k'.Kids none c l := by
  have hmemne : ∀ d ∈ l, d ≠ p := fun d hd heq => hp (heq ▸ ((hkids.mem d).mp hd).1)
  refine TreeInv.kids_congr hkids ?_ (fun d hd => hf.optr d (hmemne d hd)) (fun d hd => ?_) fun d => ?_
  · rw [hf.cptr c hcp, if_neg hcq]
  · rw [hf.yptr d (hmemne d hd), if_neg fun hhead => hcq ?_]
    obtain ⟨_, _, _, hkidsq⟩ := h.kids q hq
    have hkid := TreeInv.kids_head hkidsq hhead
    exact Option.some.inj (((hkids.mem d).mp hd).2.symm.trans hkid.2)
  · rw [hf.isChild hp]
    exact ⟨fun hor => hor.resolve_right fun hand => hcq hand.1, .inl⟩

end Forked

theorem TreeInv.fork (h : TreeInv none k) (hf : Forked k k' p q v) (hp : p ∉ k.live) (hq : q ∈ k.live)
    (hz : (k.proc q).state ≠ .zombie) (hok : v.Ok) (hclear : PidClear k.pids v) : TreeInv none k' := by
  have hne : ∀ c, c ∈ k.live → c ≠ p := fun c hc heq => hp (heq ▸ hc)
  have hidle : k.idleproc ≠ p := hne _ h.idle
  have hlist : p ∉ k.procList := fun hmem => hp ((h.list p).mp hmem).1
  refine ⟨?_, ?_, ?_, fun c hc hci => ?_, fun c hc => ?_, fun c hc _ hcz d => ?_, ?_, fun c => ?_, fun i => ?_, fun i c => ?_,
    ?_, ?_⟩
  · rw [hf.idleproc, hf.live]
    exact Finset.mem_insert_of_mem h.idle
  · rw [hf.idleproc, hf.parent _ hidle, hf.optr _ hidle, hf.yptr _ hidle]
    refine ⟨h.idleLinks.1, h.idleLinks.2.1, ?_⟩
    -- `idleproc` is nobody's child
    rw [if_neg fun hhead => ?_]
    · exact h.idleLinks.2.2
    · obtain ⟨_, _, _, hkids⟩ := h.kids q hq
      have hkid := kids_head hkids hhead
      exact nomatch h.idleLinks.1.symm.trans hkid.2
  · rw [hf.initproc, hf.live, hf.parent _ (hne _ h.init.1), hf.idleproc]
    exact ⟨Finset.mem_insert_of_mem h.init.1, h.init.2⟩
  · rw [hf.live] at hc ⊢
    by_cases hcp : c = p
    · rw [hcp, hf.newParent]
      exact ⟨q, Finset.mem_insert_of_mem hq, rfl⟩
    · rw [hf.parent c hcp]
      rw [hf.idleproc] at hci
      obtain ⟨d, hd, heq⟩ := h.parent c ((Finset.mem_insert.mp hc).resolve_left hcp) hci
      exact ⟨d, Finset.mem_insert_of_mem hd, heq⟩
  · by_cases hcp : c = p
    · rw [hcp]
      exact ⟨none, [], fun _ => rfl, hf.kids_new h hp hq⟩
    · have hlive : c ∈ k.live := (Finset.mem_insert.mp (hf.live ▸ hc)).resolve_left hcp
      obtain ⟨y, l, hy, hkids⟩ := h.kids c hlive
      obtain rfl : y = none := hy (fun heq => nomatch heq)
      by_cases hcq : c = q
      · subst hcq
        exact ⟨none, p :: l, fun _ => rfl, hf.kids_parent hp hq hkids⟩
      · exact ⟨none, l, fun _ => rfl, hf.kids_other h hp hq hcp hcq hkids⟩
  · rw [hf.isChild hp]
    by_cases hcp : c = p
    · rw [hcp] at hcz
      exact absurd hcz hf.newState
    · have hlive : c ∈ k.live := (Finset.mem_insert.mp (hf.live ▸ hc)).resolve_left hcp
      have hcz' := (hf.state c hcp).mp hcz
      rintro (hkid | ⟨rfl, -⟩)
      · exact h.zombie c hlive (fun heq => nomatch heq) hcz' d hkid
      · exact hz hcz'
  · rw [hf.procList]
    exact List.nodup_cons.mpr ⟨hlist, h.listNodup⟩
  · rw [hf.procList, hf.live, hf.idleproc, List.mem_cons, Finset.mem_insert, h.list c]
    constructor
    · rintro (rfl | ⟨hc, hci⟩)
      · exact ⟨.inl rfl, hidle.symm⟩
      · exact ⟨.inr hc, hci⟩
    · rintro ⟨rfl | hc, hci⟩
      · exact .inl rfl
      · exact .inr ⟨hc, hci⟩
  · rw [hf.hashList]
    by_cases hi : i = pidHashfn v.lastPid
    · rw [hi, Function.update_self]
      exact List.nodup_cons.mpr ⟨fun hmem => hp ((h.hash _ p).mp hmem).1, h.hashNodup _⟩
    · rw [Function.update_of_ne hi]
      exact h.hashNodup i
  · rw [hf.live, hf.idleproc, Finset.mem_insert, hf.mem_hashList, h.hash i c]
    by_cases hcp : c = p
    · rw [hcp, hf.newPid]
      exact ⟨fun hor => ⟨.inl rfl, hidle.symm, (hor.resolve_left fun hand => hp hand.1).2⟩, fun hand => .inr ⟨rfl, hand.2.2⟩⟩
    · rw [hf.pid c hcp]
      exact ⟨fun hor => (hor.resolve_right fun hand => hcp hand.1).imp_left .inr, fun hand => .inl ⟨hand.1.resolve_left hcp, hand.2⟩⟩
  · rw [hf.nrProcess, hf.live, Finset.card_insert_of_notMem hp, h.num]
    rfl
  · rw [hf.pids_eq hlist, hf.nextSafe, hf.lastPid]
    exact h.pids.fork hok hclear (List.Perm.refl _)

/-! ## Giving children away -/

/-- The first child `p` of `q` has become the first child of `initproc`. -/
structure Adopted (k k' : Kern) (p q : Nat) : Prop where
  live : k'.live = k.live
  idleproc : k'.idleproc = k.idleproc
  initproc : k'.initproc = k.initproc
  procList : k'.procList = k.procList
  hashList : k'.hashList = k.hashList
  nrProcess : k'.nrProcess = k.nrProcess
  nextSafe : k'.nextSafe = k.nextSafe
  lastPid : k'.lastPid = k.lastPid
  pid : ∀ c, (k'.proc c).pid = (k.proc c).pid
  state : ∀ c, (k'.proc c).state = .zombie ↔ (k.proc c).state = .zombie
  parent : ∀ c, (k'.proc c).parent = if c = p then some k.initproc else (k.proc c).parent
  optr : ∀ c, (k'.proc c).optr = if c = p then (k.proc k.initproc).cptr else (k.proc c).optr
  yptr : ∀ c, (k'.proc c).yptr = if (k.proc k.initproc).cptr = some c then some p else
    if c = p then none else (k.proc c).yptr
  cptr : ∀ c, (k'.proc c).cptr = if c = k.initproc then some p else if c = q then (k.proc p).optr else (k.proc c).cptr

namespace Adopted

theorem isChild (ha : Adopted k k' p q) (hp : p ∈ k.live) (c d : Nat) :
    k'.IsChild c d ↔ if d = p then c = k.initproc else k.IsChild c d := by
  rw [Kern.IsChild, ha.live, ha.parent]
  by_cases hd : d = p
  · rw [if_pos hd, if_pos hd, hd]
    exact ⟨fun hand => (Option.some.inj hand.2).symm, fun heq => ⟨hp, congrArg some heq.symm⟩⟩
  · rw [if_neg hd, if_neg hd]
    exact Iff.rfl

/-- `initproc` gets the process in front of its children. -/
theorem kids_init (ha : Adopted k k' p q) (hp : k.IsChild q p) (hqi : q ≠ k.initproc) {l : List Nat}
    (hkids : k.Kids none k.initproc l) : k'.Kids none k.initproc (p :: l) := by
  have hpinit : (k.proc k.initproc).cptr ≠ some p := fun heq =>
    hqi (Option.some.inj (hp.2.symm.trans (TreeInv.kids_head hkids heq).2))
  have hmemne : ∀ d ∈ l, d ≠ p := fun d hd heq =>
    hqi (Option.some.inj (hp.2.symm.trans (heq ▸ ((hkids.mem d).mp hd).2)))
  refine ⟨?_, List.nodup_cons.mpr ⟨fun hmem => hmemne p hmem rfl, hkids.nodup⟩, fun d => ?_⟩
  · rw [ha.cptr, if_pos rfl]
    refine hkids.chained.push hkids.nodup ?_ ?_ (fun d hd => ?_) (fun d hd => ?_) fun d hd hne => ?_
    · exact (ha.optr p).trans (if_pos rfl)
    · exact (ha.yptr p).trans ((if_neg hpinit).trans (if_pos rfl))
    · exact (ha.optr d).trans (if_neg (hmemne d hd))
    · exact (ha.yptr d).trans (if_pos hd)
    · exact (ha.yptr d).trans ((if_neg hne).trans (if_neg (hmemne d hd)))
  · rw [ha.isChild hp.1, List.mem_cons]
    by_cases hd : d = p
    · rw [if_pos hd]
      exact iff_of_true (.inl hd) rfl
    · rw [if_neg hd, ← hkids.mem d]
      exact ⟨fun hor => hor.resolve_left hd, .inr⟩

/-- The children of the others keep the one in front of them. -/
theorem yptr_other (ha : Adopted k k' p q) {y : Option Nat} {l : List Nat} (hkidsi : k.Kids y k.initproc l)
    (hci : c ≠ k.initproc) : ∀ d, k.IsChild c d → d ≠ p → (k'.proc d).yptr = (k.proc d).yptr := by
  intro d hd hdp
  rw [ha.yptr, if_neg, if_neg hdp]
  exact fun heq => hci (Option.some.inj (hd.2.symm.trans (TreeInv.kids_head hkidsi heq).2))

/-- The list of `q` goes on with its next child. -/
theorem kids_rest (ha : Adopted k k' p q) (hp : k.IsChild q p) (hqi : q ≠ k.initproc) (hhead : (k.proc q).cptr = some p)
    {y yi : Option Nat} {l li : List Nat} (hkids : k.Kids y q l) (hkidsi : k.Kids yi k.initproc li) :
    k'.Kids (some p) q l.tail := by
  have hchained := hkids.chained
  rw [hhead] at hchained
  obtain ⟨rest, rfl, -, hrest⟩ := hchained.uncons
  obtain ⟨hnot, hnodup⟩ := List.nodup_cons.mp hkids.nodup
  have hmemne : ∀ d ∈ rest, d ≠ p := fun d hd heq => hnot (heq ▸ hd)
  refine ⟨?_, hnodup, fun d => ?_⟩
  · rw [ha.cptr, if_neg hqi, if_pos rfl]
    refine hrest.congr (fun d hd => ?_) fun d hd => ?_
    · exact (ha.optr d).trans (if_neg (hmemne d hd))
    · exact ha.yptr_other hkidsi hqi d ((hkids.mem d).mp (List.mem_cons_of_mem p hd)) (hmemne d hd)
  · rw [ha.isChild hp.1, List.tail_cons]
    by_cases hd : d = p
    · rw [if_pos hd]
      exact iff_of_false (fun hmem => hmemne d hmem hd) hqi
    · rw [if_neg hd, ← hkids.mem d, List.mem_cons]
      exact ⟨.inr, fun hor => hor.resolve_left hd⟩

/-- All others keep theirs. -/
theorem kids_other (ha : Adopted k k' p q) (hp : k.IsChild q p) (hci : c ≠ k.initproc) (hcq : c ≠ q) {y yi : Option Nat}
    {l li : List Nat} (hkids : k.Kids y c l) (hkidsi : k.Kids yi k.initproc li) : k'.Kids y c l := by
  have hmemne : ∀ d ∈ l, d ≠ p := fun d hd heq => hcq (Option.some.inj (((hkids.mem d).mp hd).2.symm.trans (heq ▸ hp.2)))
  refine TreeInv.kids_congr hkids ?_ (fun d hd => ?_) (fun d hd => ?_) fun d => ?_
  · rw [ha.cptr, if_neg hci, if_neg hcq]
  · rw [ha.optr, if_neg (hmemne d hd)]
  · exact ha.yptr_other hkidsi hci d ((hkids.mem d).mp hd) (hmemne d hd)
  · rw [ha.isChild hp.1]
    by_cases hd : d = p
    · rw [if_pos hd]
      exact iff_of_false hci fun hkid => hcq (Option.some.inj (hkid.2.symm.trans (hd ▸ hp.2)))
    · rw [if_neg hd]

end Adopted

theorem TreeInv.adopt (h : TreeInv (some q) k) (ha : Adopted k k' p q) (hq : q ∈ k.live) (hqi : q ≠ k.initproc)
    (hqidle : q ≠ k.idleproc) (hz : (k.proc k.initproc).state ≠ .zombie) (hhead : (k.proc q).cptr = some p) : TreeInv (some q) k' := by
  obtain ⟨y, l, -, hkids⟩ := h.kids q hq
  have hp := TreeInv.kids_head hkids hhead
  obtain ⟨yi, li, hyi, hkidsi⟩ := h.kids k.initproc h.init.1
  obtain rfl : yi = none := hyi fun heq => hqi (Option.some.inj heq)
  have hpi : p ≠ k.idleproc := by
    rintro rfl
    exact nomatch h.idleLinks.1.symm.trans hp.2
  have hpids : k'.pids = k.pids := by
    rw [Kern.pids, Kern.pids, ha.procList]
    exact List.map_congr_left fun c _ => ha.pid c
  refine ⟨?_, ?_, ?_, fun c hc hci => ?_, fun c hc => ?_, fun c hc hcq hcz d => ?_, ?_, ?_, ?_, fun i c => ?_, ?_, ?_⟩
  · rw [ha.idleproc, ha.live]
    exact h.idle
  · rw [ha.idleproc, ha.parent, ha.optr, ha.yptr, if_neg hpi.symm, if_neg hpi.symm, if_neg hpi.symm]
    refine ⟨h.idleLinks.1, h.idleLinks.2.1, ?_⟩
    rw [if_neg fun heq => nomatch h.idleLinks.1.symm.trans (kids_head hkidsi heq).2]
    exact h.idleLinks.2.2
  · rw [ha.initproc, ha.live, ha.parent, ha.idleproc]
    refine ⟨h.init.1, ?_⟩
    split
    · next heq =>
      -- `initproc` is a child of `idleproc`, which has not exited
      rw [← heq] at hp hpi
      exact absurd (Option.some.inj (hp.2.symm.trans (h.init.2.resolve_left hpi))) hqidle
    · exact h.init.2
  · rw [ha.live] at hc ⊢
    rw [ha.idleproc] at hci
    rw [ha.parent]
    split
    · exact ⟨k.initproc, h.init.1, rfl⟩
    · exact h.parent c hc hci
  · rw [ha.live] at hc
    by_cases hci : c = k.initproc
    · rw [hci]
      exact ⟨none, p :: li, fun _ => rfl, ha.kids_init hp hqi hkidsi⟩
    · by_cases hcq : c = q
      · rw [hcq]
        exact ⟨some p, l.tail, fun hne => absurd rfl hne, ha.kids_rest hp hqi hhead hkids hkidsi⟩
      · obtain ⟨yc, lc, hyc, hkidsc⟩ := h.kids c hc
        exact ⟨yc, lc, hyc, ha.kids_other hp hci hcq hkidsc hkidsi⟩
  · rw [ha.live] at hc
    rw [ha.isChild hp.1]
    have hcz' := (ha.state c).mp hcz
    by_cases hd : d = p
    · rw [if_pos hd]
      exact fun heq => hz (heq ▸ hcz')
    · rw [if_neg hd]
      exact h.zombie c hc hcq hcz' d
  · rw [ha.procList]
    exact h.listNodup
  · rw [ha.procList, ha.live, ha.idleproc]
    exact h.list
  · rw [ha.hashList]
    exact h.hashNodup
  · rw [ha.hashList, ha.live, ha.idleproc, ha.pid]
    exact h.hash i c
  · rw [ha.nrProcess, ha.live]
    exact h.num
  · rw [hpids, ha.nextSafe, ha.lastPid]
    exact h.pids

/-- A process that has given its children away has none, and starts with all of them. -/
theorem TreeInv.childless (h : TreeInv (some q) k) (hnone : (k.proc q).cptr = none) : TreeInv none k := by
  have hnochild : q ∈ k.live → ∀ c, ¬ k.IsChild q c := by
    intro hq c hkid
    obtain ⟨y, l, -, hkids⟩ := h.kids q hq
    have hnil := hkids.chained.nil_iff.mp hnone
    exact List.not_mem_nil (hnil ▸ (hkids.mem c).mpr hkid)
  refine ⟨h.idle, h.idleLinks, h.init, h.parent, fun c hc => ?_, fun c hc _ hcz => ?_, h.listNodup, h.list, h.hashNodup,
    h.hash, h.num, h.pids⟩
  · obtain ⟨y, l, hy, hkids⟩ := h.kids c hc
    by_cases hcq : c = q
    · subst hcq
      have hnil := hkids.chained.nil_iff.mp hnone
      exact ⟨none, l, fun _ => rfl, by rw [hnil, hnone]; rfl, hkids.nodup, hkids.mem⟩
    · exact ⟨y, l, fun _ => hy fun heq => hcq (Option.some.inj heq).symm, hkids⟩
  · by_cases hcq : c = q
    · subst hcq
      exact hnochild hc
    · exact h.zombie c hc (fun heq => hcq (Option.some.inj heq).symm) hcz

/-- A process becomes a zombie, whatever its children do. -/
theorem TreeInv.exiting (h : TreeInv none k) (hparent : ∀ p, (k'.proc p).parent = (k.proc p).parent)
    (hcptr : ∀ p, (k'.proc p).cptr = (k.proc p).cptr) (hyptr : ∀ p, (k'.proc p).yptr = (k.proc p).yptr)
    (hoptr : ∀ p, (k'.proc p).optr = (k.proc p).optr) (hpid : ∀ p, (k'.proc p).pid = (k.proc p).pid)
    (hstate : ∀ p, p ≠ q → ((k'.proc p).state = .zombie ↔ (k.proc p).state = .zombie)) (hlive : k'.live = k.live)
    (hidle : k'.idleproc = k.idleproc) (hinit : k'.initproc = k.initproc) (hlist : k'.procList = k.procList)
    (hhash : k'.hashList = k.hashList) (hnr : k'.nrProcess = k.nrProcess) (hsafe : k'.nextSafe = k.nextSafe)
    (hlast : k'.lastPid = k.lastPid) : TreeInv (some q) k' := by
  have hchild : ∀ c d, k'.IsChild c d ↔ k.IsChild c d := fun c d => by
    rw [Kern.IsChild, Kern.IsChild, hlive, hparent]
  have hpids : k'.pids = k.pids := by
    rw [Kern.pids, Kern.pids, hlist]
    exact List.map_congr_left fun c _ => hpid c
  refine ⟨?_, ?_, ?_, fun p hp hpi => ?_, fun c hc => ?_, fun p hp hpq hz c => ?_, ?_, ?_, ?_, fun i p => ?_, ?_, ?_⟩
  · rw [hidle, hlive]
    exact h.idle
  · rw [hidle, hparent, hoptr, hyptr]
    exact h.idleLinks
  · rw [hinit, hlive, hparent, hidle]
    exact h.init
  · rw [hlive] at hp ⊢
    rw [hidle] at hpi
    rw [hparent]
    exact h.parent p hp hpi
  · obtain ⟨y, l, hy, hkids⟩ := h.kids c (hlive ▸ hc)
    exact ⟨y, l, fun _ => hy fun heq => (nomatch heq),
      kids_congr hkids (hcptr c) (fun d _ => hoptr d) (fun d _ => hyptr d) (hchild c)⟩
  · rw [hchild]
    exact h.zombie p (hlive ▸ hp) (fun heq => nomatch heq) ((hstate p fun heq => hpq (congrArg some heq.symm)).mp hz) c
  · rw [hlist]
    exact h.listNodup
  · rw [hlist, hlive, hidle]
    exact h.list
  · rw [hhash]
    exact h.hashNodup
  · rw [hhash, hlive, hidle, hpid]
    exact h.hash i p
  · rw [hnr, hlive]
    exact h.num
  · rw [hpids, hsafe, hlast]
    exact h.pids

/-! ## Reaping a child -/

/-- The child `p` of `q` is gone. -/
structure Reaped (k k' : Kern) (p q : Nat) : Prop where
  live : k'.live = k.live.erase p
  idleproc : k'.idleproc = k.idleproc
  initproc : k'.initproc = k.initproc
  procList : k'.procList = k.procList.erase p
  hashList : ∀ i, k'.hashList i = (k.hashList i).erase p
  nrProcess : k'.nrProcess = k.nrProcess - 1
  nextSafe : k'.nextSafe = k.nextSafe
  lastPid : k'.lastPid = k.lastPid
  parent : ∀ c, (k'.proc c).parent = (k.proc c).parent
  pid : ∀ c, (k'.proc c).pid = (k.proc c).pid
  state : ∀ c, (k'.proc c).state = .zombie ↔ (k.proc c).state = .zombie
  optr : ∀ c, c ≠ p → (k'.proc c).optr = if (k.proc p).yptr = some c then (k.proc p).optr else (k.proc c).optr
  yptr : ∀ c, c ≠ p → (k'.proc c).yptr = if (k.proc p).optr = some c then (k.proc p).yptr else (k.proc c).yptr
  cptr : ∀ c, c ≠ p → (k'.proc c).cptr =
    if c = q ∧ (k.proc p).yptr = none then (k.proc p).optr else (k.proc c).cptr

namespace Reaped

theorem isChild (hr : Reaped k k' p q) (c d : Nat) : k'.IsChild c d ↔ k.IsChild c d ∧ d ≠ p := by
  rw [Kern.IsChild, Kern.IsChild, hr.live, hr.parent, Finset.mem_erase]
  exact ⟨fun hand => ⟨⟨hand.1.2, hand.2⟩, hand.1.1⟩, fun hand => ⟨⟨hand.2, hand.1.1⟩, hand.1.2⟩⟩

theorem pids_sublist (hr : Reaped k k' p q) : k'.pids.Sublist k.pids := by
  have hmap : k'.pids = (k.procList.erase p).map fun c => (k.proc c).pid := by
    rw [Kern.pids, hr.procList]
    exact List.map_congr_left fun c _ => hr.pid c
  rw [hmap]
  exact List.erase_sublist.map _

/-- The parent links the siblings to each other. -/
theorem kids_parent (hr : Reaped k k' p q) (hp : k.IsChild q p) (hqp : q ≠ p) {l : List Nat} (hkids : k.Kids none q l) :
    k'.Kids none q (l.erase p) := by
  refine ⟨?_, hkids.nodup.erase p, fun d => ?_⟩
  · have hremove := hkids.chained.remove hkids.nodup (fun _ heq => nomatch heq) ((hkids.mem p).mpr hp)
      (fun d _ hdp => hr.optr d hdp) fun d _ hdp => hr.yptr d hdp
    have hhead : (k'.proc q).cptr = if (k.proc p).yptr = none then (k.proc p).optr else (k.proc q).cptr := by
      rw [hr.cptr q hqp]
      simp only [true_and]
    rw [hhead]
    exact hremove
  · rw [hr.isChild, hkids.nodup.mem_erase_iff, hkids.mem d]
    exact and_comm

/-- All others keep their lists. -/
theorem kids_other (hr : Reaped k k' p q) (hp : k.IsChild q p) {lq l : List Nat} (hkidsq : k.Kids none q lq) (hcp : c ≠ p)
    (hcq : c ≠ q) (hkids : k.Kids none c l) : k'.Kids none c l := by
  have hin := (hkidsq.mem p).mpr hp
  have hother : ∀ d, k.IsChild c d → ¬ k.IsChild q d := fun d hd hd' => hcq (Option.some.inj (hd.2.symm.trans hd'.2))
  have hmemne : ∀ d ∈ l, d ≠ p := fun d hd heq => hother p (heq ▸ (hkids.mem d).mp hd) hp
  refine TreeInv.kids_congr hkids ?_ (fun d hd => ?_) (fun d hd => ?_) fun d => ?_
  · rw [hr.cptr c hcp, if_neg fun hand => hcq hand.1]
  · rw [hr.optr d (hmemne d hd), if_neg fun heq => hother d ((hkids.mem d).mp hd) (TreeInv.kids_prev hkidsq hin heq)]
  · rw [hr.yptr d (hmemne d hd), if_neg fun heq => hother d ((hkids.mem d).mp hd) (TreeInv.kids_next hkidsq hin heq)]
  · rw [hr.isChild]
    exact ⟨fun hand => hand.1, fun hkid => ⟨hkid, fun heq => hother p (heq ▸ hkid) hp⟩⟩

end Reaped

theorem TreeInv.reap (h : TreeInv none k) (hr : Reaped k k' p q) (hp : k.IsChild q p) (hq : q ∈ k.live)
    (hpi : p ≠ k.initproc) (hz : (k.proc p).state = .zombie) : TreeInv none k' := by
  obtain ⟨y, lq, hy, hkidsq⟩ := h.kids q hq
  obtain rfl : y = none := hy fun heq => nomatch heq
  have hpidle : p ≠ k.idleproc := by
    rintro rfl
    exact nomatch h.idleLinks.1.symm.trans hp.2
  have hin := (hkidsq.mem p).mpr hp
  have hnochild : ∀ c, ¬ k.IsChild p c := h.zombie p hp.1 (fun heq => nomatch heq) hz
  refine ⟨?_, ?_, ?_, fun c hc hci => ?_, fun c hc => ?_, fun c hc _ hcz d => ?_, ?_, fun c => ?_, fun i => ?_, fun i c => ?_,
    ?_, ?_⟩
  · rw [hr.idleproc, hr.live]
    exact Finset.mem_erase.mpr ⟨hpidle.symm, h.idle⟩
  · rw [hr.idleproc, hr.parent, hr.optr _ hpidle.symm, hr.yptr _ hpidle.symm]
    refine ⟨h.idleLinks.1, ?_, ?_⟩
    · rw [if_neg fun heq => nomatch h.idleLinks.1.symm.trans (kids_prev hkidsq hin heq).2]
      exact h.idleLinks.2.1
    · rw [if_neg fun heq => nomatch h.idleLinks.1.symm.trans (kids_next hkidsq hin heq).2]
      exact h.idleLinks.2.2
  · rw [hr.initproc, hr.live, hr.parent, hr.idleproc]
    exact ⟨Finset.mem_erase.mpr ⟨hpi.symm, h.init.1⟩, h.init.2⟩
  · rw [hr.live] at hc ⊢
    rw [hr.idleproc] at hci
    rw [hr.parent]
    obtain ⟨hcp, hlive⟩ := Finset.mem_erase.mp hc
    obtain ⟨d, hd, heq⟩ := h.parent c hlive hci
    refine ⟨d, Finset.mem_erase.mpr ⟨?_, hd⟩, heq⟩
    rintro rfl
    exact hnochild c ⟨hlive, heq⟩
  · rw [hr.live] at hc
    obtain ⟨hcp, hc⟩ := Finset.mem_erase.mp hc
    obtain ⟨yc, lc, hyc, hkidsc⟩ := h.kids c hc
    obtain rfl : yc = none := hyc fun heq => nomatch heq
    by_cases hcq : c = q
    · subst hcq
      exact ⟨none, lc.erase p, fun _ => rfl, hr.kids_parent hp hcp hkidsc⟩
    · exact ⟨none, lc, fun _ => rfl, hr.kids_other hp hkidsq hcp hcq hkidsc⟩
  · rw [hr.live] at hc
    rw [hr.isChild]
    exact fun hand => h.zombie c (Finset.mem_of_mem_erase hc) (fun heq => nomatch heq) ((hr.state c).mp hcz) d hand.1
  · rw [hr.procList]
    exact h.listNodup.erase p
  · rw [hr.procList, hr.live, hr.idleproc, h.listNodup.mem_erase_iff, Finset.mem_erase, h.list c, and_assoc]
  · rw [hr.hashList]
    exact (h.hashNodup i).erase p
  · rw [hr.hashList, hr.live, hr.idleproc, hr.pid, (h.hashNodup i).mem_erase_iff, Finset.mem_erase, h.hash i c, and_assoc]
  · have hcard := Finset.card_erase_add_one hp.1
    rw [hr.nrProcess, hr.live, h.num]
    omega
  · rw [hr.nextSafe, hr.lastPid]
    exact h.pids.subset (hr.pids_sublist.nodup h.pids.nodup) fun pid hmem => hr.pids_sublist.subset hmem

end Ucore
