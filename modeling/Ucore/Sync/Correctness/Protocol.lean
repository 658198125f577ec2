import Mathlib.Logic.Function.Basic
import Ucore.Sync.Correctness.SemRuns
import Ucore.Sync.Monitor

/-!
# `Sync.Correctness.Protocol` — processes that use semaphores by a protocol

In a `Protocol` the processes `proc a` go from one place to another, and are in `down` of a semaphore at some of them; the
rest of the kernel leaves these semaphores alone. One of them, the mutex, holds a token at first. A process has the token
at its `active` places, and when it has been released from a queue through which the token is handed on (`Hands`).
-/

namespace Ucore

structure Protocol (ι L : Type) where
  proc : ι → Nat
  proc_inj : Function.Injective proc
  out : L
  active : L → Prop
  sem : ι → L → Option Nat
  IsSem : Nat → Prop
  Hands : Nat → Prop
  sem_out : ∀ a, sem a out = none
  sem_active : ∀ a v, active v → sem a v = none
  sem_isSem : ∀ a v i, sem a v = some i → IsSem i
  hands_isSem : ∀ i, Hands i → IsSem i

variable {ι L : Type} {P : Protocol ι L} {s s' : Sys} {loc : ι → L} {a b : ι} {k k' : Kern} {e : Event} {pc : Pc} {p i mutex : Nat}
  {v : L} {l : Label}

/-! ## Steps of the kernel -/

theorem Sys.move_pc (s : Sys) (k' : Kern) (e : Event) (pc : Pc) : (s.move k' e pc).pc s.k.current = pc := if_pos rfl

namespace Effect

theorem sems (h : Effect s e pc k') (he : ¬ e.OnSem i) : k'.semValue i = s.k.semValue i ∧
    k'.waitQueue (.sem i) = s.k.waitQueue (.sem i) := by
  have hsems : SameSems s.k k' → k'.semValue i = s.k.semValue i ∧ k'.waitQueue (.sem i) = s.k.waitQueue (.sem i) :=
    fun hs => ⟨congrFun hs.value i, hs.queue i⟩
  cases h with
  | quiet family sems hpc => exact hsems sems
  | up j => exact Kern.upped_other fun heq => he heq.symm
  | took hpos => exact ⟨Function.update_of_ne (fun heq => he heq.symm) _ _, rfl⟩
  | queued hzero hawake => exact ⟨rfl, Kern.setQueue_other _ _ fun heq => he (QueueId.sem.inj heq).symm⟩
  | fork hp hf hrest => exact hsems hrest.sems
  | exit hawake hexited => exact hsems hexited.sems
  | wait hrest hlook => exact hsems hrest.sems
  | reap hawake hr hrest hlook => exact hsems hrest.sems

/-- Processes come by `do_fork`, and go as zombies. -/
theorem live (h : Effect s e pc k') (hinv : SysInv s) (p : Nat) :
    (p ∈ k'.live ↔ p ∈ s.k.live) ∨ p ∉ s.k.live ∨ s.blocked p = some .exit := by
  cases h with
  | quiet family sems hpc => exact .inl (by rw [family.live])
  | up j => exact .inl (by rw [(hinv.kern.sameFamily_upped j).live])
  | took hpos => exact .inl Iff.rfl
  | queued hzero hawake => exact .inl Iff.rfl
  | fork hp hf hrest =>
    next c v =>
    by_cases hpc : p = c
    · exact .inr (.inl (hpc ▸ hp))
    · left
      rw [hf.live, Finset.mem_insert, or_iff_right hpc]
  | exit hawake hexited => exact .inl (by rw [hexited.live])
  | wait hrest hlook => exact .inl (by rw [hrest.tree.live])
  | reap hawake hr hrest hlook =>
    next pid c =>
    by_cases hpc : p = c
    · rw [hpc]
      exact .inr (.inr ((hinv.kern.waits c hlook.1.1).zombie.mp hlook.2.1))
    · left
      rw [hr.live, Finset.mem_erase, and_iff_right hpc]

theorem born (h : Effect s e pc k') (hinv : SysInv s) (hp : p ∈ k'.live) : p ∈ s.k.live ∨ e = .fork p := by
  cases h with
  | quiet family sems hpc => exact .inl (family.live ▸ hp)
  | up j => exact .inl ((hinv.kern.sameFamily_upped j).live ▸ hp)
  | took hpos => exact .inl hp
  | queued hzero hawake => exact .inl hp
  | fork hnew hf hrest =>
    rw [hf.live, Finset.mem_insert] at hp
    exact hp.elim (fun heq => .inr (congrArg Event.fork heq.symm)) .inl
  | exit hawake hexited => exact .inl (hexited.live ▸ hp)
  | wait hrest hlook => exact .inl (hrest.tree.live ▸ hp)
  | reap hawake hr hrest hlook => exact .inl (Finset.mem_of_mem_erase (hr.live ▸ hp))

theorem fork_new (h : Effect s (.fork p) pc k') : p ∉ s.k.live := by
  cases h with
  | fork hnew hf hrest => exact hnew

/-- Only `down` gets a process into `down`. -/
theorem down_pc (h : Effect s e pc k') (hpc : pc.blocked = some (.down i)) :
    e.OnSem i ∨ pc.blocked = s.blocked s.k.current := by
  cases h with
  | quiet family sems hquiet => exact hquiet.elim (fun hawake => absurd hpc (hawake.2.1 i)) .inr
  | up j => exact nomatch hpc
  | took hpos => exact nomatch hpc
  | queued hzero hawake => exact .inl (Blocked.down.inj (Option.some.inj hpc))
  | fork hp hf hrest => exact nomatch hpc
  | exit hawake hexited => exact nomatch hpc
  | wait hrest hlook => exact nomatch hpc
  | reap hawake hr hrest hlook => exact nomatch hpc

theorem exit_pc (h : Effect s e pc k') (hpc : pc.blocked = some .exit) :
    (∃ code, e = .exit s.k.current code) ∨ pc.blocked = s.blocked s.k.current := by
  cases h with
  | quiet family sems hquiet => exact hquiet.elim (fun hawake => absurd hpc hawake.2.2) .inr
  | up j => exact nomatch hpc
  | took hpos => exact nomatch hpc
  | queued hzero hawake => exact nomatch hpc
  | fork hp hf hrest => exact nomatch hpc
  | exit hawake hexited => exact .inl ⟨_, rfl⟩
  | wait hrest hlook => exact nomatch hpc
  | reap hawake hr hrest hlook => exact nomatch hpc

end Effect

theorem Step.run_of_call {c : Call} (hs : Step s (.call c) s') : s.pc s.k.current = .run := by
  cases hs with
  | call hpc hok hrun => exact hpc

theorem Step.post_of_resume (hs : Step s .resume s') : ∃ b, s.pc s.k.current = .post b := by
  cases hs with
  | resume hpc hrun => exact ⟨_, hpc⟩

theorem Label.kinds (l : Label) : (∃ c, l = .call c) ∨ l = .resume ∨ ((∀ c, l ≠ .call c) ∧ l ≠ .resume) := by
  cases l with
  | call c => exact .inl ⟨c, rfl⟩
  | resume => exact .inr (.inl rfl)
  | switch => exact .inr (.inr ⟨fun _ he => (nomatch he), fun he => (nomatch he)⟩)
  | tick => exact .inr (.inr ⟨fun _ he => (nomatch he), fun he => (nomatch he)⟩)
  | key => exact .inr (.inr ⟨fun _ he => (nomatch he), fun he => (nomatch he)⟩)

namespace SysInv

/-- A step other than a call or its second half moves nobody. -/
theorem step_still (h : SysInv s) (hs : Step s l s') (hcall : ∀ c, l ≠ .call c) (hback : l ≠ .resume) :
    s'.blocked = s.blocked ∧ (s.pc s.k.current = .run → s'.k.current = s.k.current ∧ s'.pc = s.pc) := by
  have hsame : ∀ k' : Kern, (s.move k' .other (s.pc s.k.current)).pc = s.pc := by
    intro k'
    funext p
    show (if p = s.k.current then s.pc s.k.current else if Event.other = .fork p then .run else s.pc p) = s.pc p
    by_cases hp : p = s.k.current
    · rw [if_pos hp, hp]
    · rw [if_neg hp, if_neg Event.noConfusion]
  cases hs with
  | call => exact absurd rfl (hcall _)
  | switch hpc hrun =>
    refine ⟨Sys.blocked_same s _ _ (fun _ he => by cases he) ?_, fun hr => by cases hr.symm.trans hpc⟩
    rw [Sys.blocked, hpc]
    rfl
  | resume => exact absurd rfl hback
  | tick hrun =>
    rcases runTimerList_quiet h.kern with hpanic | ⟨k', hok, -, hq⟩
    · cases hpanic.symm.trans hrun
    · obtain ⟨-, rfl⟩ := Outcome.ok.inj (hok.symm.trans hrun)
      exact ⟨Sys.blocked_same s _ _ (fun _ he => by cases he) rfl, fun _ => ⟨hq.current, hsame _⟩⟩
  | key hrun =>
    obtain ⟨k', hok, -, hq⟩ := devStdinWrite_quiet h.kern
    obtain ⟨-, rfl⟩ := Outcome.ok.inj (hok.symm.trans hrun)
    exact ⟨Sys.blocked_same s _ _ (fun _ he => by cases he) rfl, fun _ => ⟨hq.current, hsame _⟩⟩

end SysInv

namespace Protocol

/-- Who is in `down` of one of the semaphores is there by the protocol, and who is gone was outside. -/
structure Inv (P : Protocol ι L) (s : Sys) (loc : ι → L) : Prop where
  sys : SysInv s
  gone : ∀ a, P.proc a ∉ s.k.live ∨ s.blocked (P.proc a) = some .exit → loc a = P.out
  within : ∀ p ∈ s.k.live, ∀ i, P.IsSem i →
    (s.blocked p = some (.down i) ↔ ∃ a, p = P.proc a ∧ P.sem a (loc a) = some i)

/-- A step that is none of the protocol's. -/
structure Other (P : Protocol ι L) (s : Sys) (loc : ι → L) (l : Label) (e : Event) : Prop where
  sem : ∀ i, P.IsSem i → ¬ e.OnSem i
  back : l = .resume → ∀ a, s.k.current = P.proc a → P.sem a (loc a) = none
  exit : ∀ code, e = .exit s.k.current code → ∀ a, s.k.current = P.proc a → loc a = P.out

/-- What is the same behind such a step. -/
structure Same (P : Protocol ι L) (s s' : Sys) (loc : ι → L) : Prop where
  value : ∀ i, P.IsSem i → s'.k.semValue i = s.k.semValue i
  queue : ∀ i, P.IsSem i → s'.k.waitQueue (.sem i) = s.k.waitQueue (.sem i)
  live : ∀ a, loc a ≠ P.out → (P.proc a ∈ s'.k.live ↔ P.proc a ∈ s.k.live)

/-- The process has the token. -/
def Holds (P : Protocol ι L) (s : Sys) (loc : ι → L) (a : ι) : Prop :=
  P.active (loc a) ∨ ∃ i, P.Hands i ∧ P.sem a (loc a) = some i ∧ P.proc a ∉ s.k.waitQueue (.sem i)

def Token (P : Protocol ι L) (mutex : Nat) (s : Sys) (loc : ι → L) : Prop :=
  (s.k.semValue mutex = 1 ∧ ∀ a, ¬ P.Holds s loc a) ∨
  (s.k.semValue mutex = 0 ∧ ∃ a, P.Holds s loc a ∧ ∀ b, P.Holds s loc b → b = a)

namespace Inv

theorem init {semValue : Nat → Int} (hsem : ∀ i, 0 ≤ semValue i) (hstart : SysStart semValue s) (hout : ∀ a, loc a = P.out) :
    P.Inv s loc ∧ s.k.semValue = semValue := by
  obtain ⟨q, hq, hrun, hpc, -⟩ := id hstart
  refine ⟨⟨sysInv_init ⟨semValue, hsem, hstart⟩, fun a _ => hout a, fun p _ i _ => iff_of_false ?_ ?_⟩,
    (procInit_spec hsem hq hrun).2.2.value⟩
  · rw [Sys.blocked, hpc]
    exact fun he => by cases he
  · rintro ⟨a, -, ha⟩
    rw [hout, P.sem_out] at ha
    cases ha

/-- The process is there, and at what it does. -/
theorem mem (h : P.Inv s loc) (hi : P.sem a (loc a) = some i) :
    P.proc a ∈ s.k.live ∧ s.blocked (P.proc a) = some (.down i) := by
  have hlive : P.proc a ∈ s.k.live := by
    by_contra hp
    rw [h.gone a (.inl hp), P.sem_out] at hi
    exact nomatch hi
  exact ⟨hlive, (h.within _ hlive i (P.sem_isSem _ _ _ hi)).mpr ⟨a, rfl, hi⟩⟩

/-- Whoever is in the queue got there by the protocol. -/
theorem waiter (h : P.Inv s loc) (hi : P.IsSem i) (hp : p ∈ s.k.waitQueue (.sem i)) :
    ∃ a, p = P.proc a ∧ P.sem a (loc a) = some i := by
  obtain ⟨hlive, hof, -⟩ := h.sys.kern.queue.mem _ p hp
  exact (h.within p hlive i hi).mp hof

/-- **Coming back** from a queue: the process has been released. -/
theorem back (h : P.Inv s loc) (ha : s.k.current = P.proc a) (hsem : P.sem a (loc a) = some i) (hs : Step s .resume s') :
    P.proc a ∉ s.k.waitQueue (.sem i) ∧ s' = s.move s.k .other .run := by
  have hb := (h.mem hsem).2
  rw [← ha] at hb ⊢
  exact (h.sys.step_back hb hs).2

/-- **The rest of the kernel** leaves the protocol alone. -/
theorem other (h : P.Inv s loc) (hs : Step s l s') (he : s'.events = e :: s.events) (ho : P.Other s loc l e) :
    P.Inv s' loc ∧ P.Same s s' loc := by
  obtain ⟨e', pc, k', rfl, hmoved⟩ := h.sys.step hs
  obtain ⟨rfl, -⟩ := List.cons.inj he
  have heffect := hmoved.effect
  have hsems : ∀ i, P.IsSem i → k'.semValue i = s.k.semValue i ∧ k'.waitQueue (.sem i) = s.k.waitQueue (.sem i) :=
    fun i hi => heffect.sems (ho.sem i hi)
  -- those who come or go are outside
  have hlive : ∀ a, loc a ≠ P.out → (P.proc a ∈ k'.live ↔ P.proc a ∈ s.k.live) := fun a ha =>
    (heffect.live h.sys _).resolve_right fun hgone => ha (h.gone a hgone)
  have hblocked : ∀ p, (s.move k' e' pc).blocked p =
      if p = s.k.current then pc.blocked else if e' = .fork p then none else s.blocked p := by
    intro p
    show Pc.blocked (if p = s.k.current then pc else if e' = .fork p then .run else s.pc p) = _
    split
    · rfl
    · split
      · rfl
      · rfl
  have hcur := h.sys.kern.run.current
  have hdown : ∀ i, P.IsSem i → (pc.blocked = some (.down i) ↔ s.blocked s.k.current = some (.down i)) := by
    refine fun i hi => ⟨fun hb => ?_, fun hb => ?_⟩
    · exact ((heffect.down_pc hb).resolve_left (ho.sem i hi)).symm.trans hb
    · rcases l.kinds with ⟨c, rfl⟩ | rfl | ⟨hnocall, hnoback⟩
      · rw [Sys.blocked, hs.run_of_call] at hb
        cases hb
      · obtain ⟨a, ha, hsem⟩ := (h.within _ hcur i hi).mp hb
        cases (ho.back rfl a ha).symm.trans hsem
      · rw [← (h.sys.step_still hs hnocall hnoback).1, hblocked, if_pos rfl] at hb
        exact hb
  refine ⟨⟨hmoved.inv, fun a hp => ?_, fun p hp i hi => ?_⟩, fun i hi => (hsems i hi).1, fun i hi => (hsems i hi).2, hlive⟩
  · rcases hp with hp | hp
    · by_contra hout
      exact hout (h.gone a (.inl fun hmem => hp ((hlive a hout).mpr hmem)))
    · rw [hblocked] at hp
      split at hp
      · next hcur =>
        rcases heffect.exit_pc hp with ⟨code, hcode⟩ | hsame
        · exact ho.exit code hcode a hcur.symm
        · exact h.gone a (.inr (hcur ▸ hsame.symm.trans hp))
      · split at hp
        · cases hp
        · exact h.gone a (.inr hp)
  · rw [hblocked]
    split
    · next hp' =>
      rw [hdown i hi, ← hp']
      exact h.within p (hp' ▸ hcur) i hi
    · rcases heffect.born h.sys hp with hold | hnew
      · rw [if_neg fun he => (he ▸ heffect).fork_new hold]
        exact h.within p hold i hi
      · rw [if_pos hnew]
        refine iff_of_false (fun he => by cases he) ?_
        rintro ⟨a, rfl, hsem⟩
        rw [h.gone a (.inl (hnew ▸ heffect).fork_new), P.sem_out] at hsem
        cases hsem

variable [DecidableEq ι]

/-- **A step of the protocol** by its process `a`, to the place `v`. -/
theorem stepped (h : P.Inv s loc) (ha : s.k.current = P.proc a) (hinv : SysInv (s.move k' e pc)) (he : ∀ p, e ≠ .fork p)
    (hlive : k'.live = s.k.live) (hdown : ∀ i, P.IsSem i → (pc.blocked = some (.down i) ↔ P.sem a v = some i))
    (hexit : pc.blocked ≠ some .exit) : P.Inv (s.move k' e pc) (Function.update loc a v) := by
  have hcur := h.sys.kern.run.current
  have hblocked : (s.move k' e pc).blocked = Function.update s.blocked s.k.current pc.blocked := Sys.blocked_move s k' pc he
  refine ⟨hinv, fun b hb => ?_, fun p hp i hi => ?_⟩
  · have hba : b ≠ a := by
      rintro rfl
      rcases hb with hb | hb
      · exact hb (show P.proc b ∈ k'.live from hlive ▸ ha ▸ hcur)
      · rw [hblocked, ← ha, Function.update_self] at hb
        exact hexit hb
    rw [Function.update_of_ne hba]
    refine h.gone b (hb.imp (fun hb hmem => hb (show P.proc b ∈ k'.live from hlive ▸ hmem)) fun hb => ?_)
    rw [hblocked, Function.update_of_ne fun heq => hba (P.proc_inj (heq.trans ha))] at hb
    exact hb
  · rw [hblocked]
    by_cases hpc : p = s.k.current
    · rw [hpc, Function.update_self, hdown i hi]
      refine ⟨fun hv => ⟨a, ha, ?_⟩, ?_⟩
      · rw [Function.update_self]
        exact hv
      · rintro ⟨b, hb, hsem⟩
        obtain rfl := P.proc_inj (ha.symm.trans hb)
        rw [Function.update_self] at hsem
        exact hsem
    · rw [Function.update_of_ne hpc, h.within p (show p ∈ s.k.live from hlive ▸ hp) i hi]
      refine exists_congr fun b => and_congr_right fun hb => ?_
      rw [Function.update_of_ne]
      rintro rfl
      exact hpc (hb.trans ha.symm)

/-- The process goes on without the kernel. -/
theorem relabel (h : P.Inv s loc) (ha : s.k.current = P.proc a) (hrun : s.pc s.k.current = .run)
    (hv : P.sem a v = none) : P.Inv s (Function.update loc a v) := by
  have hblocked : s.blocked (P.proc a) = none := ha ▸ SysInv.blocked_run hrun
  have hlive : P.proc a ∈ s.k.live := ha ▸ h.sys.kern.run.current
  refine ⟨h.sys, fun b hgone => ?_, fun p hp i hi => ?_⟩
  · have hba : b ≠ a := by
      rintro rfl
      rcases hgone with hgone | hgone
      · exact hgone hlive
      · exact nomatch hblocked.symm.trans hgone
    rw [Function.update_of_ne hba]
    exact h.gone b hgone
  · by_cases hpa : p = P.proc a
    · rw [hpa, hblocked]
      refine iff_of_false (fun he => nomatch he) ?_
      rintro ⟨b, hab, hsem⟩
      obtain rfl := P.proc_inj hab
      rw [Function.update_self, hv] at hsem
      exact nomatch hsem
    · rw [h.within p hp i hi]
      refine exists_congr fun b => and_congr_right fun hb => ?_
      rw [Function.update_of_ne]
      rintro rfl
      exact hpa hb

end Inv

/-! ## The token -/

theorem Token.init (hvalue : s.k.semValue mutex = 1) (hout : ∀ a, loc a = P.out) (hactive : ¬ P.active P.out) :
    P.Token mutex s loc := by
  refine .inl ⟨hvalue, fun a ha => ?_⟩
  rw [Holds, hout] at ha
  rcases ha with ha | ⟨i, -, hi, -⟩
  · exact hactive ha
  · exact nomatch (P.sem_out a).symm.trans hi

theorem Token.only (h : P.Token mutex s loc) (ha : P.Holds s loc a) :
    s.k.semValue mutex = 0 ∧ ∀ b, P.Holds s loc b → b = a := by
  rcases h with ⟨-, hnone⟩ | ⟨hzero, c, -, honly⟩
  · exact absurd ha (hnone a)
  · refine ⟨hzero, fun b hb => ?_⟩
    rw [honly b hb, honly a ha]

theorem Inv.sem_of_mem (h : P.Inv s loc) (hi : P.IsSem i) (ha : P.proc a ∈ s.k.waitQueue (.sem i)) : P.sem a (loc a) = some i := by
  obtain ⟨b, hb, hsem⟩ := h.waiter hi ha
  rw [P.proc_inj hb]
  exact hsem

/-- Who has the token waits for nothing. -/
theorem Inv.not_mem_of_holds (h : P.Inv s loc) (ha : P.Holds s loc a) (hi : P.IsSem i) :
    P.proc a ∉ s.k.waitQueue (.sem i) := by
  intro hmem
  have hsem := h.sem_of_mem hi hmem
  rcases ha with hactive | ⟨j, -, hj, hnot⟩
  · simp [P.sem_active _ _ hactive] at hsem
  · obtain rfl : j = i := Option.some.inj (hj.symm.trans hsem)
    exact hnot hmem

theorem Token.of_same {loc' : ι → L} (h : P.Token mutex s loc) (hvalue : s'.k.semValue mutex = s.k.semValue mutex)
    (hholds : ∀ b, P.Holds s' loc' b ↔ P.Holds s loc b) : P.Token mutex s' loc' := by
  rcases h with ⟨hone, hnone⟩ | ⟨hzero, c, hc, honly⟩
  · exact .inl ⟨hvalue.trans hone, fun b hb => hnone b ((hholds b).mp hb)⟩
  · exact .inr ⟨hvalue.trans hzero, c, (hholds c).mpr hc, fun b hb => honly b ((hholds b).mp hb)⟩

theorem holds_of_same (hq : ∀ i, P.IsSem i → s'.k.waitQueue (.sem i) = s.k.waitQueue (.sem i)) (b : ι) :
    P.Holds s' loc b ↔ P.Holds s loc b := by
  refine or_congr Iff.rfl (exists_congr fun i => and_congr_right fun hi => and_congr_right fun _ => ?_)
  rw [hq i (P.hands_isSem i hi)]

variable [DecidableEq ι]

theorem holds_other (hb : b ≠ a)
    (hq : ∀ i, P.Hands i → (P.proc b ∈ s'.k.waitQueue (.sem i) ↔ P.proc b ∈ s.k.waitQueue (.sem i))) :
    P.Holds s' (Function.update loc a v) b ↔ P.Holds s loc b := by
  rw [Holds, Holds, Function.update_of_ne hb]
  exact or_congr Iff.rfl (exists_congr fun i => and_congr_right fun hi => and_congr_right fun _ => not_congr (hq i hi))

theorem holds_active (hv : P.active v) : P.Holds s' (Function.update loc a v) a := .inl (by rw [Function.update_self]; exact hv)

theorem not_holds (hv : ¬ P.active v) (hsem : ∀ i, P.Hands i → P.sem a v ≠ some i) :
    ¬ P.Holds s' (Function.update loc a v) a := by
  rw [Holds, Function.update_self]
  rintro (hactive | ⟨i, hi, hsome, -⟩)
  · exact hv hactive
  · exact hsem i hi hsome

/-- The process keeps what it has. -/
theorem Token.keep (h : P.Token mutex s loc) (hvalue : s'.k.semValue mutex = s.k.semValue mutex)
    (hq : ∀ b, b ≠ a → ∀ i, P.Hands i → (P.proc b ∈ s'.k.waitQueue (.sem i) ↔ P.proc b ∈ s.k.waitQueue (.sem i)))
    (ha : P.Holds s' (Function.update loc a v) a ↔ P.Holds s loc a) : P.Token mutex s' (Function.update loc a v) := by
  refine h.of_same hvalue fun b => ?_
  by_cases hb : b = a
  · rw [hb]
    exact ha
  · exact holds_other hb (hq b hb)

/-- **`up` by the process that has the token**, and goes no further, hands it over to the first one in the queue. -/
theorem Inv.give (h : P.Inv s loc) (ht : P.Token mutex s loc) (e : Event) (pc : Pc) (ha : s.k.current = P.proc a)
    (hactive : P.active (loc a)) (hi : P.Hands i) (hnil : s.k.waitQueue (.sem i) = [] → i = mutex) (hv : ¬ P.active v)
    (hsem : P.sem a v = none) : P.Token mutex (s.move (s.k.upped i) e pc) (Function.update loc a v) ∧
    ((s.k.upped i).semValue mutex = 1 → s.k.waitQueue (.sem i) = []) ∧
    ∀ w rest, s.k.waitQueue (.sem i) = w :: rest →
      ∃ b, w = P.proc b ∧ P.sem b (loc b) = some i ∧ P.Holds (s.move (s.k.upped i) e pc) (Function.update loc a v) b := by
  obtain ⟨hzero, honly⟩ := ht.only (.inl hactive)
  have hself : ¬ P.Holds (s.move (s.k.upped i) e pc) (Function.update loc a v) a :=
    not_holds hv fun i _ he => nomatch hsem.symm.trans he
  cases hlist : s.k.waitQueue (.sem i) with
  | nil =>
    obtain rfl := hnil hlist
    have hvalue : (s.k.upped i).semValue i = 1 := by
      rw [Kern.upped_nil hlist]
      show Function.update _ _ _ _ = _
      rw [Function.update_self, hzero]
      rfl
    refine ⟨.inl ⟨hvalue, fun b hb => ?_⟩, fun _ => rfl, fun w rest he => nomatch he⟩
    by_cases hba : b = a
    · exact hself (hba ▸ hb)
    · refine hba (honly b ((holds_other hba fun j _ => ?_).mp hb))
      show P.proc b ∈ (s.k.upped i).waitQueue (.sem j) ↔ _
      rw [Kern.upped_nil hlist]
      exact Iff.rfl
  | cons w rest =>
    obtain ⟨hvalue, hqueue⟩ := Kern.upped_cons hlist
    have hnodup : (w :: rest).Nodup := hlist ▸ h.sys.kern.queue.nodup (.sem i)
    obtain ⟨c, rfl, hc⟩ := h.waiter (P.hands_isSem i hi) (hlist ▸ List.mem_cons_self)
    have hca : c ≠ a := by
      rintro rfl
      rw [P.sem_active _ _ hactive] at hc
      exact nomatch hc
    have hholds : P.Holds (s.move (s.k.upped i) e pc) (Function.update loc a v) c := by
      refine .inr ⟨i, hi, ?_, ?_⟩
      · rw [Function.update_of_ne hca]
        exact hc
      · show P.proc c ∉ (s.k.upped i).waitQueue (.sem i)
        rw [hqueue]
        exact (List.nodup_cons.mp hnodup).1
    refine ⟨.inr ⟨(congrFun hvalue _).trans hzero, c, hholds, fun b hb => ?_⟩, fun hone => ?_, fun w' rest' he => ?_⟩
    · by_contra hbc
      by_cases hba : b = a
      · exact hself (hba ▸ hb)
      · refine hba (honly b ((holds_other hba fun j _ => ?_).mp hb))
        show P.proc b ∈ (s.k.upped i).waitQueue (.sem j) ↔ _
        by_cases hj : j = i
        · rw [hj, hqueue, hlist, List.mem_cons, or_iff_right fun heq => hbc (P.proc_inj heq)]
        · rw [(Kern.upped_other hj).2]
    · rw [hvalue, hzero] at hone
      exact nomatch hone
    · obtain ⟨rfl, -⟩ := List.cons.inj he
      exact ⟨c, rfl, hc, hholds⟩

/-- **`down(mutex)`** that finds the token. -/
theorem Token.take (h : P.Token mutex s loc) (e : Event) (pc : Pc) (hpos : 0 < s.k.semValue mutex) (hv : P.active v) :
    P.Token mutex (s.move (s.k.setSem mutex (s.k.semValue mutex - 1)) e pc) (Function.update loc a v) ∧
    s.k.semValue mutex = 1 := by
  rcases h with ⟨hone, hnone⟩ | ⟨hzero, -⟩
  · refine ⟨.inr ⟨?_, a, holds_active hv, fun b hb => ?_⟩, hone⟩
    · show Function.update _ _ _ _ = _
      rw [Function.update_self, hone]
      rfl
    · by_contra hba
      refine hnone b ((holds_other hba fun j _ => ?_).mp hb)
      exact Iff.rfl
  · omega

/-- **`down` that has to wait**: the token stays where it is. -/
theorem Token.block (h : P.Token mutex s loc) (e : Event) (pc : Pc) (ha : s.k.current = P.proc a) (hno : ¬ P.Holds s loc a)
    (hv : ¬ P.active v) (hsem : P.sem a v = some i) :
    P.Token mutex (s.move (s.k.blockedOn (.sem i) wtKsem) e pc) (Function.update loc a v) ∧
    ∀ b, P.Holds (s.move (s.k.blockedOn (.sem i) wtKsem) e pc) (Function.update loc a v) b ↔ P.Holds s loc b := by
  have hqueue : (s.k.blockedOn (.sem i) wtKsem).waitQueue (.sem i) = s.k.waitQueue (.sem i) ++ [s.k.current] :=
    Kern.setQueue_self _ _ _
  have hother : ∀ {j}, j ≠ i → (s.k.blockedOn (.sem i) wtKsem).waitQueue (.sem j) = s.k.waitQueue (.sem j) :=
    fun hj => Kern.setQueue_other _ _ fun heq => hj (QueueId.sem.inj heq)
  have hholds : ∀ b, P.Holds (s.move (s.k.blockedOn (.sem i) wtKsem) e pc) (Function.update loc a v) b ↔ P.Holds s loc b := by
    intro b
    by_cases hba : b = a
    · rw [hba]
      refine iff_of_false ?_ hno
      rw [Holds, Function.update_self]
      rintro (hactive | ⟨j, -, hj, hmem⟩)
      · exact hv hactive
      · -- it is in the queue that it waits in
        obtain rfl := Option.some.inj (hsem.symm.trans hj)
        refine hmem ?_
        show P.proc a ∈ (s.k.blockedOn (.sem i) wtKsem).waitQueue (.sem i)
        rw [hqueue, ← ha]
        exact List.mem_append_right _ (List.mem_singleton_self _)
    · refine holds_other hba fun j _ => ?_
      show P.proc b ∈ (s.k.blockedOn (.sem i) wtKsem).waitQueue (.sem j) ↔ _
      by_cases hj : j = i
      · rw [hj, hqueue, List.mem_append, List.mem_singleton, ha, or_iff_left fun heq => hba (P.proc_inj heq)]
      · rw [hother hj]
  exact ⟨h.of_same rfl hholds, hholds⟩

end Protocol

end Ucore
