import Ucore.Sync.CheckSync
import Ucore.Sync.Correctness.Protocol

/-!
# `Sync.Correctness.PhiSema` — the philosophers with semaphores

What holds of the states alone comes first; the version with a monitor has the same tests. A hungry philosopher could
start to eat only while its left neighbour is in `put_forks` and has not got to it yet.
-/

namespace Ucore

variable {N : Nat} {st st' : Fin N → PhiState} {i j k : Fin N} {v w : PhiStage}

/-! ## The ring -/

theorem right_val (i : Fin N) : (right i).val = if i.val + 1 = N then 0 else i.val + 1 := by
  show (i.val + 1) % N = _
  split
  · next h => rw [h, Nat.mod_self]
  · exact Nat.mod_eq_of_lt (by omega)

theorem left_val (i : Fin N) : (left i).val = if i.val = 0 then N - 1 else i.val - 1 := by
  show (i.val + N - 1) % N = _
  split
  · next h => rw [h, Nat.zero_add, Nat.mod_eq_of_lt (by omega)]
  · next h =>
    rw [show i.val + N - 1 = i.val - 1 + N by omega, Nat.add_mod_right]
    exact Nat.mod_eq_of_lt (by omega)

theorem left_right (i : Fin N) : left (right i) = i := by
  apply Fin.ext
  rw [left_val, right_val]
  split <;> split <;> omega

theorem right_left (i : Fin N) : right (left i) = i := by
  apply Fin.ext
  rw [right_val, left_val]
  split <;> split <;> omega

theorem right_ne (hN : 3 ≤ N) (i : Fin N) : right i ≠ i := by
  intro h
  have hval := congrArg Fin.val h
  rw [right_val] at hval
  split at hval <;> omega

theorem left_ne (hN : 3 ≤ N) (i : Fin N) : left i ≠ i := fun h => right_ne hN i (by rw [← h, right_left, h])

/-! ## The tests -/

/-- What `phi_test` makes of the states. -/
def phiTested (st : Fin N → PhiState) (j : Fin N) : Fin N → PhiState :=
  if phiTest st j then Function.update st j .eating else st

/-- No two neighbours eat. -/
def NeighboursApart (st : Fin N → PhiState) : Prop := ∀ i, st i = .eating → st (right i) ≠ .eating

theorem NeighboursApart.assign {s : PhiState} (h : NeighboursApart st) (hs : s ≠ .eating) (i : Fin N) :
    NeighboursApart (Function.update st i s) := by
  intro k hk
  have hki : k ≠ i := by
    rintro rfl
    exact hs (Function.update_self k s st ▸ hk)
  rw [Function.update_of_ne hki] at hk
  by_cases hr : right k = i
  · rw [hr, Function.update_self]
    exact hs
  · rw [Function.update_of_ne hr]
    exact h k hk

theorem NeighboursApart.tested (hN : 3 ≤ N) (h : NeighboursApart st) (j : Fin N) : NeighboursApart (phiTested st j) := by
  rw [phiTested]
  split
  · next hj =>
    obtain ⟨-, hleft, hright⟩ := hj
    intro k hk
    by_cases hkj : k = j
    · rw [hkj, Function.update_of_ne (right_ne hN j)]
      exact hright
    · rw [Function.update_of_ne hkj] at hk
      by_cases hr : right k = j
      · -- it would have had an eating neighbour
        rw [← hr, left_right] at hleft
        exact absurd hk hleft
      · rw [Function.update_of_ne hr]
        exact h k hk
  · exact h

theorem phiTest_mono (hk : st' k = st k) (heat : ∀ i, st i = .eating → st' i = .eating) (h : phiTest st' k) : phiTest st k :=
  ⟨hk ▸ h.1, fun he => h.2.1 (heat _ he), fun he => h.2.2 (heat _ he)⟩

theorem phiTest_tested (h : phiTest (phiTested st j) k) : k ≠ j ∧ phiTest st k := by
  rw [phiTested] at h
  split at h
  · have hkj : k ≠ j := by
      rintro rfl
      exact nomatch (Function.update_self k PhiState.eating st).symm.trans h.1
    refine ⟨hkj, phiTest_mono (Function.update_of_ne hkj _ _) (fun i hi => ?_) h⟩
    by_cases hij : i = j
    · rw [hij, Function.update_self]
    · rw [Function.update_of_ne hij]
      exact hi
  · next hj => exact ⟨fun hkj => hj (hkj ▸ h), h⟩

theorem phiTest_hungry (hi : st i ≠ .eating) (h : phiTest (Function.update st i .hungry) k) : k = i ∨ phiTest st k := by
  by_cases hki : k = i
  · exact .inl hki
  · refine .inr (phiTest_mono (Function.update_of_ne hki _ _) (fun j hj => ?_) h)
    have hji : j ≠ i := by
      rintro rfl
      exact hi hj
    rw [Function.update_of_ne hji]
    exact hj

/-- Who stops eating matters only to the two neighbours. -/
theorem phiTest_thinking (h : phiTest (Function.update st i .thinking) k) : k = left i ∨ k = right i ∨ phiTest st k := by
  obtain ⟨hhungry, hleft, hright⟩ := h
  by_cases hl : left k = i
  · right; left
    rw [← hl, right_left]
  by_cases hr : right k = i
  · left
    rw [← hr, left_right]
  have hki : k ≠ i := by
    rintro rfl
    rw [Function.update_self] at hhungry
    exact nomatch hhungry
  rw [Function.update_of_ne hki] at hhungry
  rw [Function.update_of_ne hl] at hleft
  rw [Function.update_of_ne hr] at hright
  exact .inr (.inr ⟨hhungry, hleft, hright⟩)

namespace PhiTest

theorem apart (hN : 3 ≤ N) (ht : PhiTest i v st st' j w) (h : NeighboursApart st) : NeighboursApart (phiTested st' j) := by
  cases ht with
  | take => exact (h.assign (s := .hungry) (fun he => nomatch he) i).tested hN _
  | putLeft => exact (h.assign (s := .thinking) (fun he => nomatch he) i).tested hN _
  | putRight => exact h.tested hN _

/-- **The test lemma.** If there was nobody left to test but the right neighbour of `i`, behind its first test of the two,
    then so it is afterwards. -/
theorem starving (ht : PhiTest i v st st' j w) (hself : v = .takeIn → st i ≠ .eating)
    (h : ∀ k, phiTest st k → v = .putLeft ∧ k = right i) (hk : phiTest (phiTested st' j) k) : w = .putLeft ∧ k = right i := by
  obtain ⟨hkj, hk'⟩ := phiTest_tested hk
  cases ht with
  | take =>
    rcases phiTest_hungry (hself rfl) hk' with rfl | hold
    · exact absurd rfl hkj
    · exact nomatch (h k hold).1
  | putLeft =>
    rcases phiTest_thinking hk' with rfl | hr | hold
    · exact absurd rfl hkj
    · exact ⟨rfl, hr⟩
    · exact nomatch (h k hold).1
  | putRight => exact absurd (h k hk').2 hkj

theorem not_takeLast (ht : PhiTest i v st st' j w) : v ≠ .takeLast := by
  cases ht with
  | take => exact fun he => nomatch he
  | putLeft => exact fun he => nomatch he
  | putRight => exact fun he => nomatch he

theorem state_of_ne (ht : PhiTest i v st st' j w) (hki : k ≠ i) : st' k = st k := by
  cases ht with
  | take => exact Function.update_of_ne hki _ _
  | putLeft => exact Function.update_of_ne hki _ _
  | putRight => rfl

end PhiTest

/-! ## The invariant -/

variable {P : PhiSema N} {x y : PhiSys N} {s : Sys} {k' : Kern} {e : Event} {pc : Pc} {c : PhiPc} {n : Nat}

/-- It has the mutex. -/
def PhiPc.InMutex : PhiPc → Prop
  | ⟨.takeIn, b⟩     => b = false
  | ⟨.takeTested, _⟩ => True
  | ⟨.putIn, b⟩      => b = false
  | ⟨.putLeft, _⟩    => True
  | ⟨.putRight, _⟩   => True
  | _                => False

theorem PhiTest.inMutex (ht : PhiTest i v st st' j w) : PhiPc.InMutex ⟨v, false⟩ ∧ PhiPc.InMutex ⟨w, false⟩ := by
  cases ht with
  | take => exact ⟨rfl, trivial⟩
  | putLeft => exact ⟨rfl, trivial⟩
  | putRight => exact ⟨trivial, trivial⟩

theorem PhiPc.sem_false : PhiPc.sem P i ⟨v, false⟩ = none := by
  cases v <;> rfl

theorem PhiPc.isSem (h : c.sem P i = some n) : P.IsSem n := by
  obtain ⟨v, b⟩ := c
  cases b with
  | false => exact nomatch sem_false.symm.trans h
  | true =>
    cases v with
    | takeIn => exact .inl (Option.some.inj h).symm
    | eating => exact .inr ⟨i, (Option.some.inj h).symm⟩
    | putIn => exact .inl (Option.some.inj h).symm
    | thinking => exact nomatch h
    | takeTested => exact nomatch h
    | takeLast => exact nomatch h
    | putLeft => exact nomatch h
    | putRight => exact nomatch h

theorem PhiPc.sem_inMutex (h : c.InMutex) : c.sem P i = none := by
  obtain ⟨v, b⟩ := c
  cases v with
  | takeIn =>
    obtain rfl : b = false := h
    rfl
  | putIn =>
    obtain rfl : b = false := h
    rfl
  | eating => exact h.elim
  | thinking => rfl
  | takeTested => rfl
  | takeLast => rfl
  | putLeft => rfl
  | putRight => rfl

theorem PhiPc.inMutex_of_putLeft (h : c.stage = .putLeft) : c.InMutex := by
  obtain ⟨v, b⟩ := c
  obtain rfl : v = .putLeft := h
  trivial

/-- Who is in `down(&s[j])`: philosopher `j`, in `take_forks`. -/
theorem PhiPc.of_sem_s (h : c.sem P i = some (P.s j)) : i = j ∧ c = ⟨.eating, true⟩ := by
  obtain ⟨v, b⟩ := c
  cases b with
  | false => exact nomatch sem_false.symm.trans h
  | true =>
    cases v with
    | takeIn => exact absurd (Option.some.inj h) (P.mutex_ne_s j)
    | eating => exact ⟨P.s_inj (Option.some.inj h), rfl⟩
    | putIn => exact absurd (Option.some.inj h) (P.mutex_ne_s j)
    | thinking => exact nomatch h
    | takeTested => exact nomatch h
    | takeLast => exact nomatch h
    | putLeft => exact nomatch h
    | putRight => exact nomatch h

/-- The token is the mutex. -/
def PhiSema.protocol (P : PhiSema N) : Protocol (Fin N) PhiPc where
  proc := P.philosopher
  proc_inj := P.philosopher_inj
  out := ⟨.thinking, false⟩
  active := PhiPc.InMutex
  sem := PhiPc.sem P
  IsSem := P.IsSem
  Hands n := n = P.mutex
  sem_out _ := rfl
  sem_active _ _ := PhiPc.sem_inMutex
  sem_isSem _ _ _ := PhiPc.isSem
  hands_isSem _ := .inl

/-- The state of a philosopher and its semaphore, by its stage. Neighbours change both while it is in `take_forks`. -/
def PhiAt (v : PhiStage) (st : PhiState) (value : Int) (waits : Prop) : Prop :=
  match v with
  | .takeTested => st = .hungry ∧ value = 0 ∨ st = .eating ∧ value = 1
  | .takeLast   => st = .hungry ∧ value = 0 ∨ st = .eating ∧ value = 1
  | .eating     => (waits ∧ st = .hungry ∨ ¬ waits ∧ st = .eating) ∧ value = 0
  | .putIn      => st = .eating ∧ value = 0
  | _           => st = .thinking ∧ value = 0

theorem PhiAt.of_hungry {value : Int} {waits : Prop} (h : PhiAt v .hungry value waits) :
    value = 0 ∧ (v = .takeTested ∨ v = .takeLast ∨ v = .eating ∧ waits) := by
  cases v with
  | takeTested => exact ⟨(h.resolve_right fun he => nomatch he.1).2, .inl rfl⟩
  | takeLast => exact ⟨(h.resolve_right fun he => nomatch he.1).2, .inr (.inl rfl)⟩
  | eating => exact ⟨h.2, .inr (.inr ⟨rfl, (h.1.resolve_right fun he => nomatch he.2).1⟩)⟩
  | thinking => exact nomatch h.1
  | takeIn => exact nomatch h.1
  | putIn => exact nomatch h.1
  | putLeft => exact nomatch h.1
  | putRight => exact nomatch h.1

theorem PhiAt.value {st : PhiState} {value : Int} {waits : Prop} (h : PhiAt v st value waits) : value = 0 ∨ value = 1 := by
  cases v with
  | takeTested => exact h.imp And.right And.right
  | takeLast => exact h.imp And.right And.right
  | eating => exact .inl h.2
  | thinking => exact .inl h.2
  | takeIn => exact .inl h.2
  | putIn => exact .inl h.2
  | putLeft => exact .inl h.2
  | putRight => exact .inl h.2

/-- Philosopher `i` is in the queue of its semaphore. -/
abbrev PhiSema.Waits (P : PhiSema N) (k : Kern) (i : Fin N) : Prop := P.philosopher i ∈ k.waitQueue (.sem (P.s i))

structure PhiInv (P : PhiSema N) (x : PhiSys N) : Prop where
  prot : P.protocol.Inv x.sys x.pc
  token : P.protocol.Token P.mutex x.sys x.pc
  each : ∀ i, PhiAt (x.pc i).stage (x.state i) (x.sys.k.semValue (P.s i)) (P.Waits x.sys.k i)
  apart : NeighboursApart x.state
  starving : ∀ j, phiTest x.state j → ∃ i, (x.pc i).stage = .putLeft ∧ j = right i

namespace PhiInv

theorem pc_of_waits (h : PhiInv P x) (hi : P.Waits x.sys.k i) : x.pc i = ⟨.eating, true⟩ := by
  obtain ⟨a, ha, hsem⟩ := h.prot.waiter (.inr ⟨i, rfl⟩) hi
  obtain rfl := P.philosopher_inj ha
  exact (PhiPc.of_sem_s hsem).2

theorem not_waits (h : PhiInv P x) (hpc : x.pc i ≠ ⟨.eating, true⟩) : ¬ P.Waits x.sys.k i :=
  fun hi => hpc (h.pc_of_waits hi)

/-- There is room for one. -/
theorem queue (h : PhiInv P x) (i : Fin N) : x.sys.k.waitQueue (.sem (P.s i)) = [] ∧ ¬ P.Waits x.sys.k i ∨
    x.sys.k.waitQueue (.sem (P.s i)) = [P.philosopher i] ∧ P.Waits x.sys.k i := by
  have honly : ∀ p ∈ x.sys.k.waitQueue (.sem (P.s i)), p = P.philosopher i := by
    intro p hp
    obtain ⟨a, rfl, hsem⟩ := h.prot.waiter (.inr ⟨i, rfl⟩) hp
    rw [(PhiPc.of_sem_s hsem).1]
    rfl
  have hnodup := h.prot.sys.kern.queue.nodup (.sem (P.s i))
  rw [PhiSema.Waits]
  generalize x.sys.k.waitQueue (.sem (P.s i)) = q at honly hnodup ⊢
  cases q with
  | nil => exact .inl ⟨rfl, List.not_mem_nil⟩
  | cons p rest =>
    obtain rfl := honly p List.mem_cons_self
    cases rest with
    | nil => exact .inr ⟨rfl, List.mem_singleton_self _⟩
    | cons p' rest =>
      obtain rfl := honly p' (List.mem_cons_of_mem _ List.mem_cons_self)
      exact absurd List.mem_cons_self (List.nodup_cons.mp hnodup).1

/-- Who has the mutex is the only one that can be in `put_forks`, between its tests. -/
theorem starving_self (h : PhiInv P x) (hin : (x.pc i).InMutex) (hj : phiTest x.state j) :
    (x.pc i).stage = .putLeft ∧ j = right i := by
  obtain ⟨a, ha, rfl⟩ := h.starving j hj
  obtain rfl := (h.token.only (.inl hin)).2 a (.inl (PhiPc.inMutex_of_putLeft ha))
  exact ⟨ha, rfl⟩

/-! ## Steps -/

/-- What every step of philosopher `i` keeps. -/
theorem stepped (h : PhiInv P x) (hi : x.sys.k.current = P.philosopher i) (hinv : SysInv (x.sys.move k' e pc))
    (he : ∀ p, e ≠ .fork p) (hlive : k'.live = x.sys.k.live)
    (hpc : pc = .run ∧ c.inDown = false ∨ ∃ n, pc = .pre (.down n) ∧ c.sem P i = some n)
    (htoken : P.protocol.Token P.mutex (x.sys.move k' e pc) (Function.update x.pc i c))
    (hself : PhiAt c.stage (st i) (k'.semValue (P.s i)) (P.Waits k' i))
    (hrest : ∀ k, k ≠ i → PhiAt (x.pc k).stage (st k) (k'.semValue (P.s k)) (P.Waits k' k)) (hapart : NeighboursApart st)
    (hstarving : ∀ j, phiTest st j → ∃ k, (Function.update x.pc i c k).stage = .putLeft ∧ j = right k) :
    PhiInv P ⟨x.sys.move k' e pc, Function.update x.pc i c, st⟩ := by
  refine ⟨h.prot.stepped hi hinv he hlive (fun n _ => ?_) ?_, htoken, fun k => ?_, hapart, hstarving⟩
  · rcases hpc with ⟨rfl, hc⟩ | ⟨m, rfl, hm⟩
    · refine iff_of_false (fun he => nomatch he) fun he => ?_
      obtain ⟨v, b⟩ := c
      obtain rfl : b = false := hc
      exact nomatch PhiPc.sem_false.symm.trans he
    · show some (Blocked.down m) = some (.down n) ↔ c.sem P i = some n
      rw [hm, Option.some_inj, Option.some_inj, Blocked.down.injEq]
  · rcases hpc with ⟨rfl, -⟩ | ⟨m, rfl, -⟩
    · exact fun he => nomatch he
    · exact fun he => nomatch he
  · show PhiAt (Function.update x.pc i c k).stage _ _ _
    by_cases hk : k = i
    · rw [hk, Function.update_self]
      exact hself
    · rw [Function.update_of_ne hk]
      exact hrest k hk

/-- A step that leaves the states and the other semaphores as they are. -/
theorem walked (h : PhiInv P x) (hi : x.sys.k.current = P.philosopher i) (hinv : SysInv (x.sys.move k' e pc))
    (he : ∀ p, e ≠ .fork p) (hlive : k'.live = x.sys.k.live)
    (hpc : pc = .run ∧ c.inDown = false ∨ ∃ n, pc = .pre (.down n) ∧ c.sem P i = some n)
    (htoken : P.protocol.Token P.mutex (x.sys.move k' e pc) (Function.update x.pc i c))
    (hself : PhiAt c.stage (x.state i) (k'.semValue (P.s i)) (P.Waits k' i))
    (hsems : ∀ k, k ≠ i → k'.semValue (P.s k) = x.sys.k.semValue (P.s k) ∧
      k'.waitQueue (.sem (P.s k)) = x.sys.k.waitQueue (.sem (P.s k)))
    (hput : (x.pc i).stage = .putLeft → c.stage = .putLeft) : PhiInv P ⟨x.sys.move k' e pc, Function.update x.pc i c, x.state⟩ := by
  refine h.stepped hi hinv he hlive hpc htoken hself (fun k hk => ?_) h.apart fun j hj => ?_
  · rw [(hsems k hk).1, PhiSema.Waits, (hsems k hk).2]
    exact h.each k
  · obtain ⟨a, ha, rfl⟩ := h.starving j hj
    refine ⟨a, ?_, rfl⟩
    by_cases hai : a = i
    · rw [hai, Function.update_self]
      exact hput (hai ▸ ha)
    · rw [Function.update_of_ne hai]
      exact ha

theorem called_run (x : PhiSys N) (i : Fin N) (k' : Kern) (e : Event) (v : PhiStage) :
    x.called i (x.sys.move k' e .run) v = ⟨x.sys.move k' e .run, Function.update x.pc i ⟨v, false⟩, x.state⟩ := by
  rw [PhiSys.called, Sys.move_pc]
  rfl

theorem called_pre (x : PhiSys N) (i : Fin N) (k' : Kern) (e : Event) (b : Blocked) (v : PhiStage) :
    x.called i (x.sys.move k' e (.pre b)) v = ⟨x.sys.move k' e (.pre b), Function.update x.pc i ⟨v, true⟩, x.state⟩ := by
  rw [PhiSys.called, Sys.move_pc]
  rfl

theorem not_holds (hpc : x.pc i = ⟨v, false⟩) (hv : ¬ PhiPc.InMutex ⟨v, false⟩) : ¬ P.protocol.Holds x.sys x.pc i := by
  rw [Protocol.Holds, hpc]
  rintro (hin | ⟨n, -, hsem, -⟩)
  · exact hv hin
  · cases PhiPc.sem_false.symm.trans hsem

/-- **`down(&mutex)`**, in `take_forks` or in `put_forks`. -/
theorem door (h : PhiInv P x) (hi : x.sys.k.current = P.philosopher i) (hpc : x.pc i = ⟨v, false⟩)
    (hvw : v = .thinking ∧ w = .takeIn ∨ v = .eating ∧ w = .putIn) (hs : Step x.sys (.call (.down P.mutex)) s) :
    PhiInv P (x.called i s w) := by
  have hinv := h.prot.sys.after hs
  have hwaits : ¬ P.Waits x.sys.k i := h.not_waits (by rw [hpc]; exact fun he => nomatch he)
  have hold := h.each i
  rw [hpc] at hold
  have hself : PhiAt w (x.state i) (x.sys.k.semValue (P.s i)) (P.Waits x.sys.k i) := by
    rcases hvw with ⟨rfl, rfl⟩ | ⟨rfl, rfl⟩
    · exact hold
    · exact ⟨(hold.1.resolve_left fun hw => hwaits hw.1).2, hold.2⟩
  have hno : ¬ P.protocol.Holds x.sys x.pc i := not_holds hpc (by rcases hvw with ⟨rfl, -⟩ | ⟨rfl, -⟩ <;> exact id)
  have hput : (x.pc i).stage = .putLeft → w = .putLeft := by
    rw [hpc]
    rintro rfl
    rcases hvw with ⟨he, -⟩ | ⟨he, -⟩
    · exact nomatch he
    · exact nomatch he
  have hin : PhiPc.InMutex ⟨w, false⟩ := by rcases hvw with ⟨-, rfl⟩ | ⟨-, rfl⟩ <;> rfl
  have hsem : PhiPc.sem P i ⟨w, true⟩ = some P.mutex := by rcases hvw with ⟨-, rfl⟩ | ⟨-, rfl⟩ <;> rfl
  obtain ⟨-, ⟨hpos, rfl⟩ | ⟨-, rfl⟩⟩ := h.prot.sys.step_down hs
  · have hvalue : ∀ k, Function.update x.sys.k.semValue P.mutex (x.sys.k.semValue P.mutex - 1) (P.s k) =
        x.sys.k.semValue (P.s k) := fun k => Function.update_of_ne (P.mutex_ne_s k).symm _ _
    rw [called_run]
    refine h.walked hi hinv (fun _ he => nomatch he) rfl (.inl ⟨rfl, rfl⟩) (h.token.take _ _ hpos hin).1 ?_
      (fun k _ => ⟨hvalue k, rfl⟩) hput
    rw [show (x.sys.k.setSem P.mutex (x.sys.k.semValue P.mutex - 1)).semValue (P.s i) = _ from hvalue i]
    exact hself
  · have hqueue : ∀ k, (x.sys.k.blockedOn (.sem P.mutex) wtKsem).waitQueue (.sem (P.s k)) =
        x.sys.k.waitQueue (.sem (P.s k)) :=
      fun k => Kern.setQueue_other _ _ fun he => P.mutex_ne_s k (QueueId.sem.inj he).symm
    rw [called_pre]
    refine h.walked hi hinv (fun _ he => nomatch he) rfl (.inr ⟨_, rfl, hsem⟩)
      (h.token.block _ _ hi hno (fun hin => nomatch (PhiPc.sem_inMutex hin).symm.trans hsem) hsem).1 ?_
      (fun k _ => ⟨rfl, hqueue k⟩) hput
    rw [PhiSema.Waits, hqueue]
    exact hself

/-- **`up(&mutex)`**, in `take_forks` or in `put_forks`. -/
theorem leaves (h : PhiInv P x) (hi : x.sys.k.current = P.philosopher i) (hpc : x.pc i = ⟨v, false⟩)
    (hvw : v = .takeTested ∧ w = .takeLast ∨ v = .putRight ∧ w = .thinking) (hs : Step x.sys (.call (.up P.mutex)) s) :
    PhiInv P (x.goto i s w) := by
  have hinv := h.prot.sys.after hs
  obtain ⟨-, rfl⟩ := h.prot.sys.step_up hs
  have hother : ∀ k, (x.sys.k.upped P.mutex).semValue (P.s k) = x.sys.k.semValue (P.s k) ∧
      (x.sys.k.upped P.mutex).waitQueue (.sem (P.s k)) = x.sys.k.waitQueue (.sem (P.s k)) :=
    fun k => Kern.upped_other (P.mutex_ne_s k).symm
  have hin : (x.pc i).InMutex := by
    rw [hpc]
    rcases hvw with ⟨rfl, -⟩ | ⟨rfl, -⟩ <;> trivial
  have hout : ¬ PhiPc.InMutex ⟨w, false⟩ := by rcases hvw with ⟨-, rfl⟩ | ⟨-, rfl⟩ <;> exact id
  refine h.walked hi hinv (fun _ he => nomatch he) (h.prot.sys.kern.sameFamily_upped _).live (.inl ⟨rfl, rfl⟩)
    (h.prot.give h.token _ _ hi hin rfl (fun _ => rfl) hout PhiPc.sem_false).1 ?_ (fun k _ => hother k) ?_
  · rw [(hother i).1, PhiSema.Waits, (hother i).2]
    have hold := h.each i
    rw [hpc] at hold
    rcases hvw with ⟨rfl, rfl⟩ | ⟨rfl, rfl⟩
    · exact hold
    · exact hold
  · rw [hpc]
    rintro rfl
    rcases hvw with ⟨he, -⟩ | ⟨he, -⟩
    · exact nomatch he
    · exact nomatch he

/-- **`down(&s[i])`** -/
theorem takeLast (h : PhiInv P x) (hi : x.sys.k.current = P.philosopher i) (hpc : x.pc i = ⟨.takeLast, false⟩)
    (hs : Step x.sys (.call (.down (P.s i))) s) : PhiInv P (x.called i s .eating) := by
  have hinv := h.prot.sys.after hs
  have hwaits : ¬ P.Waits x.sys.k i := h.not_waits (by rw [hpc]; exact fun he => nomatch he)
  have hold := h.each i
  have hno : ¬ P.protocol.Holds x.sys x.pc i := not_holds hpc id
  have hput : (x.pc i).stage = .putLeft → PhiStage.eating = .putLeft := by
    rw [hpc]
    exact fun he => nomatch he
  rw [hpc] at hold
  obtain ⟨-, ⟨hpos, rfl⟩ | ⟨hzero, rfl⟩⟩ := h.prot.sys.step_down hs
  · -- it has been let to eat before
    obtain ⟨heating, hone⟩ := hold.resolve_left fun hold => by omega
    rw [called_run]
    refine h.walked hi hinv (fun _ he => nomatch he) rfl (.inl ⟨rfl, rfl⟩)
      (h.token.keep (Function.update_of_ne (P.mutex_ne_s i) _ _) (fun _ _ _ _ => Iff.rfl) (iff_of_false ?_ hno))
      ⟨.inr ⟨hwaits, heating⟩, ?_⟩ (fun k hk => ⟨Function.update_of_ne (fun he => hk (P.s_inj he)) _ _, rfl⟩) hput
    · exact Protocol.not_holds id fun n _ he => nomatch he
    · show Function.update _ _ _ _ = _
      rw [Function.update_self, hone]
      rfl
  · obtain ⟨hhungry, hvalue⟩ := hold.resolve_right fun hold => by omega
    rw [called_pre]
    refine h.walked hi hinv (fun _ he => nomatch he) rfl (.inr ⟨_, rfl, rfl⟩) (h.token.block _ _ hi hno id rfl).1
      ⟨.inl ⟨?_, hhungry⟩, hvalue⟩ (fun k hk => ⟨rfl, Kern.setQueue_other _ _ fun he => hk (P.s_inj (QueueId.sem.inj he))⟩) hput
    show P.philosopher i ∈ (x.sys.k.blockedOn (.sem (P.s i)) wtKsem).waitQueue (.sem (P.s i))
    rw [show (x.sys.k.blockedOn (.sem (P.s i)) wtKsem).waitQueue (.sem (P.s i)) = _ from Kern.setQueue_self _ _ _, hi]
    exact List.mem_append_right _ (List.mem_singleton_self _)

theorem upped_s (h : PhiInv P x) (hwaits : ¬ P.Waits x.sys.k j) (hzero : x.sys.k.semValue (P.s j) = 0) :
    (x.sys.k.upped (P.s j)).semValue (P.s j) = 1 := by
  rw [Kern.upped_nil ((h.queue j).resolve_right fun hw => hwaits hw.2).1]
  show Function.update _ _ _ _ = _
  rw [Function.update_self, hzero]
  rfl

/-- `up(&s[j])` for a philosopher that has been hungry. -/
theorem fed (h : PhiInv P x) (hj : x.state j = .hungry) :
    PhiAt (x.pc j).stage .eating ((x.sys.k.upped (P.s j)).semValue (P.s j)) (P.Waits (x.sys.k.upped (P.s j)) j) := by
  have hold := h.each j
  rw [hj] at hold
  obtain ⟨hzero, hstage⟩ := hold.of_hungry
  rcases h.queue j with ⟨hnil, hwaits⟩ | ⟨hcons, hwaits⟩
  · -- it is before its `down`
    have hvalue := h.upped_s hwaits hzero
    rcases hstage with hv | hv | ⟨-, hw⟩
    · rw [hv]
      exact .inr ⟨rfl, hvalue⟩
    · rw [hv]
      exact .inr ⟨rfl, hvalue⟩
    · exact absurd hw hwaits
  · obtain ⟨hvalue, hqueue⟩ := Kern.upped_cons hcons
    rw [h.pc_of_waits hwaits]
    refine ⟨.inr ⟨?_, rfl⟩, (congrFun hvalue _).trans hzero⟩
    rw [PhiSema.Waits, hqueue]
    exact List.not_mem_nil

theorem starving_test (h : PhiInv P x) (hpc : x.pc i = ⟨v, false⟩) (ht : PhiTest i v x.state st j w)
    (hk : phiTest (phiTested st j) k) : w = .putLeft ∧ k = right i := by
  refine ht.starving ?_ (fun k hk => ?_) hk
  · rintro rfl heating
    have hold := h.each i
    rw [hpc, heating] at hold
    exact nomatch hold.1
  · have hself := h.starving_self (by rw [hpc]; exact ht.inMutex.1) hk
    rw [hpc] at hself
    exact hself

/-- **`phi_test_sema(j)`** by philosopher `i`. -/
theorem test (hN : 3 ≤ N) (h : PhiInv P x) (hi : x.sys.k.current = P.philosopher i) (hpc : x.pc i = ⟨v, false⟩)
    (ht : PhiTest i v x.state st j w) (hj : phiTest st j) (hs : Step x.sys (.call (.up (P.s j))) s) :
    PhiInv P { x.goto i s w with state := Function.update st j .eating } := by
  have hinv := h.prot.sys.after hs
  obtain ⟨-, rfl⟩ := h.prot.sys.step_up hs
  have hother : ∀ k, k ≠ j → (x.sys.k.upped (P.s j)).semValue (P.s k) = x.sys.k.semValue (P.s k) ∧
      (x.sys.k.upped (P.s j)).waitQueue (.sem (P.s k)) = x.sys.k.waitQueue (.sem (P.s k)) :=
    fun k hk => Kern.upped_other fun he => hk (P.s_inj he)
  have hmutex := Kern.upped_other (k := x.sys.k) (P.mutex_ne_s j)
  have hold := h.each i
  rw [hpc] at hold
  have hin : PhiPc.InMutex ⟨v, false⟩ := ht.inMutex.1
  have htested : Function.update st j .eating = phiTested st j := (if_pos hj).symm
  have hholds : P.protocol.Holds x.sys x.pc i := .inl (by rw [hpc]; exact hin)
  refine h.stepped hi hinv (fun _ he => nomatch he) (h.prot.sys.kern.sameFamily_upped _).live (.inl ⟨rfl, rfl⟩)
    (h.token.keep hmutex.1 ?_ (iff_of_true (Protocol.holds_active ht.inMutex.2) hholds)) ?_ (fun k hk => ?_) ?_ fun k hk => ?_
  · rintro b - n rfl
    rw [show (x.sys.move (x.sys.k.upped (P.s j)) _ _).k.waitQueue (.sem P.mutex) = _ from hmutex.2]
  · cases ht with
    | take =>
      have hwaits : ¬ P.Waits x.sys.k i := h.not_waits (by rw [hpc]; exact fun he => nomatch he)
      exact .inr ⟨Function.update_self _ _ _, h.upped_s hwaits hold.2⟩
    | putLeft =>
      have hne : i ≠ left i := (left_ne hN i).symm
      exact ⟨(Function.update_of_ne hne _ _).trans (Function.update_self _ _ _), (hother i hne).1.trans hold.2⟩
    | putRight =>
      have hne : i ≠ right i := (right_ne hN i).symm
      exact ⟨(Function.update_of_ne hne _ _).trans hold.1, (hother i hne).1.trans hold.2⟩
  · by_cases hkj : k = j
    · subst hkj
      rw [Function.update_self]
      exact h.fed ((ht.state_of_ne hk).symm.trans hj.1)
    · rw [Function.update_of_ne hkj, ht.state_of_ne hk, (hother k hkj).1, PhiSema.Waits, (hother k hkj).2]
      exact h.each k
  · rw [htested]
    exact ht.apart hN h.apart
  · rw [htested] at hk
    obtain ⟨rfl, rfl⟩ := h.starving_test hpc ht hk
    exact ⟨i, by rw [Function.update_self], rfl⟩

/-- It finds that `j` is not hungry, or has a neighbour that eats. -/
theorem testNone (hN : 3 ≤ N) (h : PhiInv P x) (hi : x.sys.k.current = P.philosopher i) (hrun : x.sys.pc x.sys.k.current = .run)
    (hpc : x.pc i = ⟨v, false⟩) (ht : PhiTest i v x.state st j w) (hj : ¬ phiTest st j) :
    PhiInv P { x.goto i x.sys w with state := st } := by
  have hold := h.each i
  rw [hpc] at hold
  have htested : st = phiTested st j := (if_neg hj).symm
  have hholds : P.protocol.Holds x.sys x.pc i := .inl (by rw [hpc]; exact ht.inMutex.1)
  refine ⟨h.prot.relabel hi hrun PhiPc.sem_false,
    h.token.keep rfl (fun _ _ _ _ => Iff.rfl) (iff_of_true (Protocol.holds_active ht.inMutex.2) hholds), fun k => ?_, ?_,
    fun k hk => ?_⟩
  · show PhiAt (Function.update x.pc i ⟨w, false⟩ k).stage (st k) _ _
    by_cases hki : k = i
    · rw [hki, Function.update_self]
      cases ht with
      | take => exact .inl ⟨Function.update_self _ _ _, hold.2⟩
      | putLeft => exact ⟨Function.update_self _ _ _, hold.2⟩
      | putRight => exact hold
    · rw [Function.update_of_ne hki, ht.state_of_ne hki]
      exact h.each k
  · show NeighboursApart st
    rw [htested]
    exact ht.apart hN h.apart
  · rw [show ({ x.goto i x.sys w with state := st } : PhiSys N).state = _ from htested] at hk
    obtain ⟨rfl, rfl⟩ := h.starving_test hpc ht hk
    exact ⟨i, by rw [show ({ x.goto i x.sys _ with state := st } : PhiSys N).pc i = _ from Function.update_self _ _ _], rfl⟩

/-- **Coming back** from one of the queues. -/
theorem back (h : PhiInv P x) (hi : x.sys.k.current = P.philosopher i) (hpc : (x.pc i).sem P i = some n)
    (hs : Step x.sys .resume s) : PhiInv P (x.goto i s (x.pc i).stage) := by
  have hinv := h.prot.sys.after hs
  obtain ⟨hmem, rfl⟩ := h.prot.back hi hpc hs
  refine h.walked hi hinv (fun _ he => by cases he) rfl (.inl ⟨rfl, rfl⟩) (h.token.keep rfl (fun _ _ _ _ => Iff.rfl) ?_)
    (h.each i) (fun k _ => ⟨rfl, rfl⟩) id
  rw [Protocol.Holds, Protocol.Holds, Function.update_self]
  -- it came from the queue of the mutex, or from its own
  generalize x.pc i = c at hpc ⊢
  obtain ⟨v, b⟩ := c
  cases b with
  | false => cases PhiPc.sem_false.symm.trans hpc
  | true =>
    cases v with
    | takeIn => exact iff_of_true (.inl rfl) (.inr ⟨_, rfl, rfl, Option.some.inj hpc ▸ hmem⟩)
    | putIn => exact iff_of_true (.inl rfl) (.inr ⟨_, rfl, rfl, Option.some.inj hpc ▸ hmem⟩)
    | eating =>
      refine iff_of_false ?_ ?_
      · rintro (hin | ⟨n, -, hsem, -⟩)
        · exact hin
        · cases hsem
      · rintro (hin | ⟨n, rfl, hsem, -⟩)
        · exact hin
        · exact P.mutex_ne_s i (Option.some.inj hsem).symm
    | thinking => cases hpc
    | takeTested => cases hpc
    | takeLast => cases hpc
    | putLeft => cases hpc
    | putRight => cases hpc

theorem other {l : Label} (h : PhiInv P x) (hs : Step x.sys l s) (he : s.events = e :: x.sys.events)
    (ho : P.protocol.Other x.sys x.pc l e) : PhiInv P { x with sys := s } := by
  obtain ⟨hprot, hsame⟩ := h.prot.other hs he ho
  refine ⟨hprot, h.token.of_same (hsame.value _ (.inl rfl)) (Protocol.holds_of_same hsame.queue), fun k => ?_, h.apart, h.starving⟩
  show PhiAt (x.pc k).stage (x.state k) (s.k.semValue (P.s k)) (P.Waits s.k k)
  rw [hsame.value _ (.inr ⟨k, rfl⟩), PhiSema.Waits, hsame.queue _ (.inr ⟨k, rfl⟩)]
  exact h.each k

/-- **The step lemma.** -/
theorem step {o : Option (Fin N)} (hN : 3 ≤ N) (h : PhiInv P x) (hs : PhiStep P x o y) : PhiInv P y := by
  cases hs with
  | take hi hpc hs => exact h.door hi hpc (.inl ⟨rfl, rfl⟩) hs
  | put hi hpc hs => exact h.door hi hpc (.inr ⟨rfl, rfl⟩) hs
  | test hi hpc ht hj hs => exact h.test hN hi hpc ht hj hs
  | testNone hi hrun hpc ht hj => exact h.testNone hN hi hrun hpc ht hj
  | takeUp hi hpc hs => exact h.leaves hi hpc (.inl ⟨rfl, rfl⟩) hs
  | takeLast hi hpc hs => exact h.takeLast hi hpc hs
  | putUp hi hpc hs => exact h.leaves hi hpc (.inr ⟨rfl, rfl⟩) hs
  | back hi hpc hs => exact h.back hi hpc hs
  | other hs he hsem hback hexit => exact h.other hs he ⟨hsem, hback, hexit⟩

theorem init {semValue : Nat → Int} (h : PhiInit P semValue x) : PhiInv P x := by
  obtain ⟨hsem, hmutex, hs, hstart, hpc, hstate⟩ := h
  have hout : ∀ i, x.pc i = ⟨.thinking, false⟩ := congrFun hpc
  have hthinking : ∀ i, x.state i = .thinking := congrFun hstate
  obtain ⟨hprot, hvalue⟩ := Protocol.Inv.init (P := P.protocol) hsem hstart hout
  refine ⟨hprot, .init (by rw [hvalue, hmutex]) hout id, fun i => ?_, fun i hi => ?_, fun j hj => ?_⟩
  · rw [hout, hthinking, hvalue, hs]
    exact ⟨rfl, rfl⟩
  · exact nomatch (hthinking i).symm.trans hi
  · exact nomatch (hthinking j).symm.trans hj.1

end PhiInv

/-! ## Somebody can go on -/

/-- Philosopher `i` waits in `down` of one of the semaphores. -/
def PhiSys.Waits (P : PhiSema N) (x : PhiSys N) (i : Fin N) : Prop :=
  ∃ n, P.IsSem n ∧ P.philosopher i ∈ x.sys.k.waitQueue (.sem n)

namespace PhiInv

/-- Who has the mutex can go on. -/
theorem up_of_holds (h : PhiInv P x) (hi : P.protocol.Holds x.sys x.pc i) : ¬ x.Waits P i ∧ (x.pc i).stage ≠ .thinking := by
  refine ⟨?_, fun hv => ?_⟩
  · rintro ⟨n, hn, hmem⟩
    exact h.prot.not_mem_of_holds hi hn hmem
  · generalize hc : x.pc i = c at hv
    obtain ⟨v, b⟩ := c
    obtain rfl : v = .thinking := hv
    rw [Protocol.Holds, hc] at hi
    rcases hi with hin | ⟨n, -, hsem, -⟩
    · exact hin
    · cases hsem

/-- While nobody has the mutex, whoever eats can go on. -/
theorem up_of_eating (h : PhiInv P x) (hone : x.sys.k.semValue P.mutex = 1) (hi : x.state i = .eating) :
    ¬ x.Waits P i ∧ (x.pc i).stage ≠ .thinking := by
  have heach := h.each i
  rw [hi] at heach
  refine ⟨?_, fun hv => ?_⟩
  · rintro ⟨n, hn, hmem⟩
    have hsem := h.prot.sem_of_mem hn hmem
    rcases hn with rfl | ⟨j, rfl⟩
    · -- nobody waits for a mutex that is free
      have hnil := h.prot.sys.kern.queue.empty P.mutex (by omega)
      rw [hnil] at hmem
      exact absurd hmem List.not_mem_nil
    · obtain ⟨rfl, hpc⟩ := PhiPc.of_sem_s hsem
      rw [hpc] at heach
      rcases heach.1 with ⟨-, hhungry⟩ | ⟨hnot, -⟩
      · cases hhungry
      · exact hnot hmem
  · rw [hv] at heach
    cases heach.1

/-- **No deadlock with semaphores.** -/
theorem goes_on (h : PhiInv P x) (hi : x.Waits P i) :
    ∃ j, ¬ x.Waits P j ∧ (x.pc j).stage ≠ .thinking := by
  rcases h.token with ⟨hone, hfree⟩ | ⟨-, a, ha, -⟩
  · obtain ⟨n, hn, hmem⟩ := hi
    rcases hn with rfl | ⟨j, rfl⟩
    · have hnil := h.prot.sys.kern.queue.empty P.mutex (by omega)
      rw [hnil] at hmem
      exact absurd hmem List.not_mem_nil
    · -- it is hungry, so one of its neighbours eats
      obtain ⟨rfl, hpc⟩ := PhiPc.of_sem_s (h.prot.sem_of_mem (.inr ⟨j, rfl⟩) hmem)
      have heach := h.each i
      rw [hpc] at heach
      have hhungry : x.state i = .hungry := by
        rcases heach.1 with ⟨-, hhungry⟩ | ⟨hnot, -⟩
        · exact hhungry
        · exact absurd hmem hnot
      by_cases hl : x.state (left i) = .eating
      · exact ⟨left i, h.up_of_eating hone hl⟩
      · by_cases hr : x.state (right i) = .eating
        · exact ⟨right i, h.up_of_eating hone hr⟩
        · obtain ⟨a, ha, -⟩ := h.starving i ⟨hhungry, hl, hr⟩
          exact absurd (.inl (PhiPc.inMutex_of_putLeft ha)) (hfree a)
  · exact ⟨a, h.up_of_holds ha⟩

end PhiInv

/-- The runs of the kernel with philosophers that use semaphores. -/
abbrev PhiReaches (P : PhiSema N) (semValue : Nat → Int) : PhiSys N → Prop :=
  Reaches (PhiInit P semValue) (PhiStep P) fun _ _ => True

theorem phiReaches_inv {semValue : Nat → Int} (hN : 3 ≤ N) (h : PhiReaches P semValue x) : PhiInv P x :=
  h.invariant (fun _ h0 => .init h0) fun _ _ _ hinv _ hs => hinv.step hN hs

end Ucore
