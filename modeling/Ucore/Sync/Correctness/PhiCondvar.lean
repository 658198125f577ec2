import Ucore.Sync.Correctness.Monitor
import Ucore.Sync.Correctness.PhiSema

/-!
# `Sync.Correctness.PhiCondvar` — the philosophers with a monitor

A philosopher in `put_forks` that lets a neighbour eat is in `cond_signal` until that neighbour has left. Meanwhile nobody
else gets in, so whoever tests is still the only one between its tests.
-/

namespace Ucore

variable {N : Nat} {P : PhiCondvar N} {x : PhiMon N} {y : MonSys N} {st st' : Fin N → PhiState} {i j k : Fin N} {v w : PhiStage}
  {p : MPc N}

/-- Where a philosopher is in the monitor, and its state, by its stage. A neighbour changes its state while it waits. -/
inductive PhiIn (i : Fin N) (waits : Prop) : PhiStage → MPc N → PhiState → Prop where
  | thinking : PhiIn i waits .thinking .out .thinking
  | takeDoor : PhiIn i waits .takeIn .entering .thinking
  | takeIn : PhiIn i waits .takeIn .active .thinking
  | hungry : PhiIn i waits .takeTested .active .hungry
  | tested : PhiIn i waits .takeTested .active .eating
  | released : PhiIn i waits .takeLast (.released i) .hungry
  | waiting (h : waits) : PhiIn i waits .takeLast (.waiting i) .hungry
  | fed (h : ¬ waits) : PhiIn i waits .takeLast (.waiting i) .eating
  | takeLast : PhiIn i waits .takeLast .active .eating
  | eating : PhiIn i waits .eating .out .eating
  | putDoor : PhiIn i waits .putIn .entering .eating
  | putIn : PhiIn i waits .putIn .active .eating
  | put {v : PhiStage} {p : MPc N} (hv : v = .putLeft ∨ v = .putRight) (hp : p = .active ∨ p.place = some none) :
    PhiIn i waits v p .thinking

namespace PhiCondvar

/-- Philosopher `i` is in the queue of its condition. -/
abbrev Waits (P : PhiCondvar N) (y : MonSys N) (i : Fin N) : Prop := P.philosopher i ∈ y.sys.k.waitQueue (.sem (P.mt.cv i))

abbrev mpc (P : PhiCondvar N) (y : MonSys N) (i : Fin N) : MPc N := y.mpc (P.philosopher i)

/-- If a philosopher is in `cond_signal`, nobody else is, and the token is with it or with one that is about to leave. -/
def Signals (P : PhiCondvar N) (y : MonSys N) (stage : Fin N → PhiStage) : Prop :=
  ∀ i, (P.mpc y i).place = some none → (∀ k, (P.mpc y k).place = some none → k = i) ∧
    ∀ q, y.Holds P.mt q → q = P.philosopher i ∨ ∃ j, q = P.philosopher j ∧ stage j = .takeLast

end PhiCondvar

structure PhiMonInv (P : PhiCondvar N) (x : PhiMon N) : Prop where
  mon : MonInv P.mt x.mon
  within : ∀ q, x.mon.mpc q ≠ .out → ∃ i, q = P.philosopher i
  each : ∀ i, PhiIn i (P.Waits x.mon i) (x.stage i) (P.mpc x.mon i) (x.state i)
  apart : NeighboursApart x.state
  starving : ∀ j, phiTest x.state j → ∃ i, x.stage i = .putLeft ∧ j = right i
  signals : P.Signals x.mon x.stage

namespace PhiIn

variable {s : PhiState} {waits waits' : Prop} {p' : MPc N}

theorem of_thinking (h : PhiIn i waits v p s) (hv : v = .thinking ∨ v = .takeIn ∨ v = .putLeft ∨ v = .putRight) :
    s = .thinking := by
  rcases hv with rfl | rfl | rfl | rfl
  all_goals cases h
  all_goals rfl

theorem of_eating (h : PhiIn i waits v p s) (hv : v = .eating ∨ v = .putIn) : s = .eating := by
  rcases hv with rfl | rfl
  · cases h with
    | eating => rfl
    | put hv => exact hv.elim (fun he => nomatch he) fun he => nomatch he
  · cases h with
    | putDoor => rfl
    | putIn => rfl
    | put hv => exact hv.elim (fun he => nomatch he) fun he => nomatch he

theorem of_tested (h : PhiIn i waits .takeTested p s) (hs : s ≠ .hungry) : s = .eating := by
  cases h with
  | hungry => exact absurd rfl hs
  | tested => rfl
  | put hv => exact hv.elim (fun he => nomatch he) fun he => nomatch he

theorem of_takeLast (h : PhiIn i waits .takeLast .active s) : s = .eating := by
  cases h with
  | takeLast => rfl
  | put hv => exact hv.elim (fun he => nomatch he) fun he => nomatch he

theorem of_putLeft (h : PhiIn i waits .putLeft p s) : p = .active ∨ p.place = some none := by
  cases h with
  | put hv hp => exact hp

theorem of_hungry (h : PhiIn i waits v p .hungry) : p = .active ∨ p = .released i ∨ p = .waiting i := by
  cases h with
  | hungry => exact .inl rfl
  | released => exact .inr (.inl rfl)
  | waiting => exact .inr (.inr rfl)

theorem of_released (h : PhiIn i waits v (.released j) s) : i = j ∧ v = .takeLast ∧ s = .hungry := by
  cases h with
  | released => exact ⟨rfl, rfl, rfl⟩
  | put hv hp => exact hp.elim (fun he => nomatch he) fun he => nomatch he

theorem of_waiting (h : PhiIn i waits v (.waiting j) s) : i = j ∧ v = .takeLast := by
  cases h with
  | waiting => exact ⟨rfl, rfl⟩
  | fed => exact ⟨rfl, rfl⟩
  | put hv hp => exact hp.elim (fun he => nomatch he) fun he => nomatch he

/-- Somewhere else in `cond_signal`, or behind it. -/
theorem signals (h : PhiIn i waits v p s) (hp : p.place = some none) (hp' : p' = .active ∨ p'.place = some none) :
    PhiIn i waits' v p' s := by
  cases h with
  | put hv _ => exact .put hv hp'
  | _ => exact nomatch hp

/-- Back from one of the queues. -/
theorem back {m : Monitor N} {n : Nat} (h : PhiIn i waits v p s) (hsem : p.sem m = some n) (hfed : n = m.cv i → ¬ waits) :
    PhiIn i waits' v .active s := by
  cases h with
  | takeDoor => exact .takeIn
  | putDoor => exact .putIn
  | waiting hw => exact absurd hw (hfed (Option.some.inj hsem).symm)
  | fed => exact .takeLast
  | put hv _ => exact .put hv (.inl rfl)
  | _ => exact nomatch hsem

end PhiIn

/-- The philosopher that has just tested itself. -/
theorem PhiTest.self_tested {waits : Prop} (hN : 3 ≤ N) (ht : PhiTest i v st st' j w) (hj : j = i) :
    PhiIn i waits w .active .eating := by
  cases ht with
  | take => exact .tested
  | putLeft => exact absurd hj (left_ne hN _)
  | putRight => exact absurd hj (right_ne hN _)

/-- The philosopher that has let `j` eat. -/
theorem PhiTest.self_signalled {waits waits' : Prop} (ht : PhiTest i v st st' j w) (h : PhiIn i waits v p (st i)) (hj : j ≠ i) :
    PhiIn i waits' w .signalled (st' i) := by
  cases ht with
  | take => exact absurd rfl hj
  | putLeft =>
    rw [Function.update_self]
    exact .put (.inl rfl) (.inr rfl)
  | putRight =>
    rw [h.of_thinking (.inr (.inr (.inl rfl)))]
    exact .put (.inr rfl) (.inr rfl)

/-- The philosopher that has let nobody eat. -/
theorem PhiTest.self_tests {waits waits' : Prop} (ht : PhiTest i v st st' j w) (h : PhiIn i waits v p (st i)) :
    PhiIn i waits' w .active (st' i) := by
  cases ht with
  | take =>
    rw [Function.update_self]
    exact .hungry
  | putLeft =>
    rw [Function.update_self]
    exact .put (.inl rfl) (.inl rfl)
  | putRight =>
    rw [h.of_thinking (.inr (.inr (.inl rfl)))]
    exact .put (.inr rfl) (.inl rfl)

namespace PhiMonInv

/-- The one that runs inside is alone, unless it is about to leave. -/
theorem no_signaller (h : PhiMonInv P x) (hactive : P.mpc x.mon i = .active)
    (hv : x.stage i ≠ .takeLast) (k : Fin N) : (P.mpc x.mon k).place ≠ some none := by
  intro hk
  rcases (h.signals k hk).2 (P.philosopher i) (.inl hactive) with he | ⟨j, he, hj⟩
  · obtain rfl := P.philosopher_inj he
    rw [hactive] at hk
    exact nomatch hk
  · obtain rfl := P.philosopher_inj he
    exact hv hj

theorem starving_self (h : PhiMonInv P x) (hactive : P.mpc x.mon i = .active) (hv : x.stage i ≠ .takeLast)
    (hj : phiTest x.state j) : x.stage i = .putLeft ∧ j = right i := by
  obtain ⟨a, ha, rfl⟩ := h.starving j hj
  have heach := h.each a
  rw [ha] at heach
  rcases heach.of_putLeft with hact | hplace
  · obtain rfl := P.philosopher_inj ((h.mon.token.only (.inl hactive)).2 _ (.inl hact))
    exact ⟨ha, rfl⟩
  · exact absurd hplace (h.no_signaller hactive hv a)

theorem starving_test (h : PhiMonInv P x) (hactive : P.mpc x.mon i = .active)
    (ht : PhiTest i (x.stage i) x.state st j w) (hk : phiTest (phiTested st j) k) : w = .putLeft ∧ k = right i := by
  refine ht.starving ?_ (fun k hk => h.starving_self hactive ht.not_takeLast hk) hk
  intro hv heating
  exact nomatch heating.symm.trans ((h.each i).of_thinking (.inr (.inl hv)))

/-- A step that does not change the states keeps the neighbours fed. -/
theorem starving_same (h : PhiMonInv P x) (hput : x.stage i = .putLeft → v = .putLeft) :
    ∀ j, phiTest x.state j → ∃ k, Function.update x.stage i v k = .putLeft ∧ j = right k := by
  intro j hj
  obtain ⟨a, ha, rfl⟩ := h.starving j hj
  refine ⟨a, ?_, rfl⟩
  by_cases hai : a = i
  · rw [hai, Function.update_self]
    exact hput (hai ▸ ha)
  · rw [Function.update_of_ne hai]
    exact ha

/-- What every step of a process inside keeps. -/
theorem stepped (h : PhiMonInv P x) (hi : x.mon.current = P.philosopher i) (hy : MonInv P.mt y)
    (hmpc : y.mpc = Function.update x.mon.mpc x.mon.current p) (hself : PhiIn i (P.Waits y i) v p (st i))
    (hrest : ∀ k, k ≠ i → PhiIn k (P.Waits y k) (x.stage k) (P.mpc x.mon k) (st k)) (hapart : NeighboursApart st)
    (hstarving : ∀ j, phiTest st j → ∃ k, Function.update x.stage i v k = .putLeft ∧ j = right k)
    (hsignals : P.Signals y (Function.update x.stage i v)) : PhiMonInv P ⟨y, Function.update x.stage i v, st⟩ := by
  refine ⟨hy, fun q hq => ?_, fun k => ?_, hapart, hstarving, hsignals⟩
  · by_cases hqi : q = x.mon.current
    · exact ⟨i, hqi.trans hi⟩
    · refine h.within q ?_
      rw [show (⟨y, Function.update x.stage i v, st⟩ : PhiMon N).mon.mpc = _ from hmpc, Function.update_of_ne hqi] at hq
      exact hq
  · show PhiIn k _ (Function.update x.stage i v k) (y.mpc (P.philosopher k)) (st k)
    rw [hmpc, hi]
    by_cases hk : k = i
    · rw [hk, Function.update_self, Function.update_self]
      exact hself
    · rw [Function.update_of_ne hk, Function.update_of_ne fun he => hk (P.philosopher_inj he)]
      exact hrest k hk

theorem each_same (h : PhiMonInv P x) (hq : ∀ k, k ≠ i → y.sys.k.waitQueue (.sem (P.mt.cv k)) = x.mon.sys.k.waitQueue (.sem (P.mt.cv k))) :
    ∀ k, k ≠ i → PhiIn k (P.Waits y k) (x.stage k) (P.mpc x.mon k) (x.state k) := by
  intro k hk
  rw [PhiCondvar.Waits, hq k hk]
  exact h.each k

theorem stay (hi : x.mon.current = P.philosopher i) (hactive : P.mpc x.mon i = .active) :
    x.mon.mpc = Function.update x.mon.mpc x.mon.current .active := by
  rw [← hactive, hi]
  exact (Function.update_eq_self _ _).symm

theorem mpc_stepped (hi : x.mon.current = P.philosopher i) (hmpc : y.mpc = Function.update x.mon.mpc x.mon.current p) (k : Fin N) :
    P.mpc y k = if k = i then p else P.mpc x.mon k := by
  rw [PhiCondvar.mpc, hmpc, hi]
  split
  · next hk => rw [hk, Function.update_self]
  · next hk => exact Function.update_of_ne (fun he => hk (P.philosopher_inj he)) _ _

/-- Nobody is in `cond_signal`. -/
theorem signals_none (hi : x.mon.current = P.philosopher i) (hmpc : y.mpc = Function.update x.mon.mpc x.mon.current p)
    (hnone : ∀ k, (P.mpc x.mon k).place ≠ some none) (hp : p.place ≠ some none) (stage : Fin N → PhiStage) :
    P.Signals y stage := by
  intro k hk
  rw [mpc_stepped hi hmpc] at hk
  split at hk
  · exact absurd hk hp
  · exact absurd hk (hnone k)

/-- The token stays where it is, and so does who is in `cond_signal`. -/
theorem signals_same (h : PhiMonInv P x) (hi : x.mon.current = P.philosopher i)
    (hmpc : y.mpc = Function.update x.mon.mpc x.mon.current p) (hplace : p.place = some none → (P.mpc x.mon i).place = some none)
    (hholds : ∀ q, y.Holds P.mt q → x.mon.Holds P.mt q) (hv : x.stage i = .takeLast → v = .takeLast) :
    P.Signals y (Function.update x.stage i v) := by
  have hold : ∀ k, (P.mpc y k).place = some none → (P.mpc x.mon k).place = some none := by
    intro k hk
    rw [mpc_stepped hi hmpc] at hk
    split at hk
    · next hki => exact hki ▸ hplace hk
    · exact hk
  intro k hk
  obtain ⟨honly, htoken⟩ := h.signals k (hold k hk)
  refine ⟨fun k' hk' => honly k' (hold k' hk'), fun q hq => ?_⟩
  refine (htoken q (hholds q hq)).imp id ?_
  rintro ⟨j, rfl, hj⟩
  refine ⟨j, rfl, ?_⟩
  by_cases hji : j = i
  · rw [hji, Function.update_self]
    exact hv (hji ▸ hj)
  · rw [Function.update_of_ne hji]
    exact hj

/-! ## Steps -/

/-- **`down(&(mtp->mutex))`**, in `take_forks` or in `put_forks`. -/
theorem door (h : PhiMonInv P x) (hi : x.mon.current = P.philosopher i)
    (hvw : x.stage i = .thinking ∧ w = .takeIn ∨ x.stage i = .eating ∧ w = .putIn) (hs : MonStep P.mt x.mon .enter y) :
    PhiMonInv P (x.goto i y w) := by
  have hy := h.mon.step hs
  have hself : ∀ waits, PhiIn i waits w .entering (x.state i) ∧ PhiIn i waits w .active (x.state i) := by
    intro waits
    rcases hvw with ⟨hv, rfl⟩ | ⟨hv, rfl⟩
    · rw [(h.each i).of_thinking (.inl hv)]
      exact ⟨.takeDoor, .takeIn⟩
    · rw [(h.each i).of_eating (.inl hv)]
      exact ⟨.putDoor, .putIn⟩
  have hput : x.stage i ≠ .putLeft ∧ x.stage i ≠ .takeLast := by
    rcases hvw with ⟨hv, -⟩ | ⟨hv, -⟩
    · rw [hv]
      exact ⟨fun he => (nomatch he), fun he => nomatch he⟩
    · rw [hv]
      exact ⟨fun he => (nomatch he), fun he => nomatch he⟩
  have hstarving := h.starving_same (v := w) fun he => absurd he hput.1
  obtain ⟨-, hq, ⟨hmpc, hfree⟩ | ⟨hmpc, hholds⟩⟩ := h.mon.enter_spec hs
  · refine h.stepped hi hy hmpc (hself _).2 (h.each_same fun k _ => hq k) h.apart hstarving
      (signals_none hi hmpc (fun k hk => ?_) (fun he => nomatch he) _)
    have hpos := h.mon.nextCount_pos hk
    omega
  · exact h.stepped hi hy hmpc (hself _).1 (h.each_same fun k _ => hq k) h.apart hstarving
      (h.signals_same hi hmpc (fun he => nomatch he) (fun q => (hholds q).mp) fun he => absurd he hput.2)

/-- **`phi_test_condvar(j)`** that lets `j` eat. -/
theorem test (hN : 3 ≤ N) (h : PhiMonInv P x) (hi : x.mon.current = P.philosopher i)
    (ht : PhiTest i (x.stage i) x.state st j w) (hj : phiTest st j) (hs : MonStep P.mt x.mon (.signal j) y) :
    PhiMonInv P { x.goto i y w with state := Function.update st j .eating } := by
  have hy := h.mon.step hs
  have htested : Function.update st j .eating = phiTested st j := (if_pos hj).symm
  obtain ⟨hactive, hcases⟩ := h.mon.signal_spec hs
  rw [hi] at hactive
  have hapart : NeighboursApart (Function.update st j .eating) := htested ▸ ht.apart hN h.apart
  have hstarving : ∀ k, phiTest (Function.update st j .eating) k → ∃ a, Function.update x.stage i w a = .putLeft ∧ k = right a := by
    intro k hk
    rw [htested] at hk
    obtain ⟨rfl, rfl⟩ := h.starving_test hactive ht hk
    exact ⟨i, Function.update_self _ _ _, rfl⟩
  rcases hcases with ⟨rfl, hcount⟩ | ⟨hmpc, q, rest, hlist, hwait, hq, hrest, hother⟩
  · -- nobody waits there, so it is the philosopher itself
    obtain rfl : j = i := by
      by_contra hji
      have hold := h.each j
      rw [← ht.state_of_ne hji, hj.1] at hold
      rcases hold.of_hungry with hact | hmid | hwait
      · exact hji (P.philosopher_inj ((h.mon.token.only (.inl hactive)).2 _ (.inl hact)))
      · exact hji (P.philosopher_inj ((h.mon.mid _ (by rw [show x.mon.mpc (P.philosopher j) = _ from hmid]; trivial)).1.trans hi))
      · exact hcount (h.mon.count_pos (p := P.philosopher j) (by rw [show x.mon.mpc (P.philosopher j) = _ from hwait]; rfl))
    refine h.stepped hi hy (stay hi hactive) ?_ (fun k hk => ?_) hapart hstarving
      (h.signals_same hi (stay hi hactive) (fun he => nomatch he) (fun _ => id) fun he => absurd he ht.not_takeLast)
    · rw [Function.update_self]
      exact ht.self_tested hN rfl
    · rw [Function.update_of_ne hk, ht.state_of_ne hk]
      exact h.each k
  · -- it waits in `cond_wait`, and is in `take_forks`
    obtain ⟨a, rfl⟩ := h.within q (by rw [hwait]; exact fun he => nomatch he)
    have hold := h.each a
    rw [show P.mpc x.mon a = _ from hwait] at hold
    obtain ⟨rfl, hlast⟩ := hold.of_waiting
    have hai : a ≠ i := by
      rintro rfl
      exact nomatch hactive.symm.trans hwait
    have hnone := fun k => h.no_signaller hactive ht.not_takeLast k
    refine h.stepped hi hy hmpc ?_ (fun k hk => ?_) hapart hstarving fun k hk => ?_
    · rw [Function.update_of_ne hai.symm]
      exact ht.self_signalled (h.each i) hai
    · by_cases hka : k = a
      · rw [hka, Function.update_self, hlast]
        rw [show P.mpc x.mon a = _ from hwait]
        refine .fed ?_
        have hnodup : (P.philosopher a :: rest).Nodup := hlist ▸ h.mon.prot.sys.kern.queue.nodup _
        rw [PhiCondvar.Waits, show (x.goto i y w).mon.sys.k.waitQueue _ = _ from hrest]
        exact (List.nodup_cons.mp hnodup).1
      · rw [Function.update_of_ne hka, ht.state_of_ne hk, PhiCondvar.Waits,
          show (x.goto i y w).mon.sys.k.waitQueue _ = _ from hother k hka]
        exact h.each k
    · have hself : ∀ k, (P.mpc y k).place = some none → k = i := by
        intro k hk
        rw [mpc_stepped hi hmpc] at hk
        split at hk
        · next hki => exact hki
        · exact absurd hk (hnone k)
      obtain rfl := hself k hk
      refine ⟨hself, fun b hb => .inr ⟨a, (hy.token.only hq).2 b hb, ?_⟩⟩
      rw [Function.update_of_ne hai]
      exact hlast

/-- It finds that `j` is not hungry, or has a neighbour that eats. -/
theorem testNone (hN : 3 ≤ N) (h : PhiMonInv P x) (hi : x.RunsIn P i) (ht : PhiTest i (x.stage i) x.state st j w)
    (hj : ¬ phiTest st j) : PhiMonInv P { x.goto i x.mon w with state := st } := by
  obtain ⟨hi, hactive, -⟩ := hi
  rw [hi] at hactive
  have htested : st = phiTested st j := (if_neg hj).symm
  refine h.stepped hi h.mon (stay hi hactive) (ht.self_tests (h.each i)) (fun k hk => ?_) ?_ (fun k hk => ?_)
    (h.signals_same hi (stay hi hactive) (fun he => nomatch he) (fun _ => id) fun he => absurd he ht.not_takeLast)
  · rw [ht.state_of_ne hk]
    exact h.each k
  · rw [htested]
    exact ht.apart hN h.apart
  · rw [htested] at hk
    obtain ⟨rfl, rfl⟩ := h.starving_test hactive ht hk
    exact ⟨i, Function.update_self _ _ _, rfl⟩

/-- **`cond_wait`**, up to its `down`. -/
theorem wait (h : PhiMonInv P x) (hi : x.mon.current = P.philosopher i) (hpc : x.stage i = .takeTested)
    (hst : x.state i = .hungry) (hs : MonStep P.mt x.mon (.wait i) y) : PhiMonInv P (x.goto i y .takeLast) := by
  obtain ⟨hactive, hmpc, hq⟩ := h.mon.wait_spec hs
  rw [hi] at hactive
  have hnone := h.no_signaller hactive (by rw [hpc]; exact fun he => nomatch he)
  refine h.stepped hi (h.mon.step hs) hmpc (hst ▸ .released) (h.each_same fun k _ => hq k) h.apart
    (h.starving_same fun he => ?_) (signals_none hi hmpc hnone (fun he => nomatch he) _)
  exact nomatch hpc.symm.trans he

theorem waitNone (h : PhiMonInv P x) (hi : x.RunsIn P i) (hpc : x.stage i = .takeTested) (hst : x.state i ≠ .hungry) :
    PhiMonInv P (x.goto i x.mon .takeLast) := by
  obtain ⟨hi, hactive, -⟩ := hi
  rw [hi] at hactive
  have hold := h.each i
  rw [hpc] at hold
  refine h.stepped hi h.mon (stay hi hactive) (hold.of_tested hst ▸ .takeLast) (fun k _ => h.each k) h.apart
    (h.starving_same fun he => ?_) (h.signals_same hi (stay hi hactive) (fun he => nomatch he) (fun _ => id) fun _ => rfl)
  exact nomatch hpc.symm.trans he

/-- **Leaving** at the end of `take_forks`: whoever is in `cond_signal` goes on. -/
theorem takeLast (h : PhiMonInv P x) (hi : x.mon.current = P.philosopher i) (hpc : x.stage i = .takeLast)
    (hs : MonStep P.mt x.mon .leave y) : PhiMonInv P (x.goto i y .eating) := by
  have hy := h.mon.step hs
  obtain ⟨hactive, hmpc, hq, hnext⟩ := h.mon.leave_spec hs
  rw [hi] at hactive
  have heating : x.state i = .eating := by
    have hold := h.each i
    rw [hpc, show P.mpc x.mon i = _ from hactive] at hold
    exact hold.of_takeLast
  refine h.stepped hi hy hmpc (heating ▸ .eating) (h.each_same fun k _ => hq k) h.apart (h.starving_same fun he => ?_) fun k hk => ?_
  · exact nomatch hpc.symm.trans he
  · have hold : ∀ k, (P.mpc y k).place = some none → (P.mpc x.mon k).place = some none := by
      intro k hk
      rw [mpc_stepped hi hmpc] at hk
      split at hk
      · exact nomatch hk
      · exact hk
    have honly := (h.signals k (hold k hk)).1
    refine ⟨fun k' hk' => honly k' (hold k' hk'), fun b hb => .inl ?_⟩
    -- the token goes to the one in `cond_signal`
    obtain ⟨q, hwait, hq⟩ := hnext (h.mon.nextCount_pos (hold k hk))
    obtain ⟨a, rfl⟩ := h.within q (by rw [hwait]; exact fun he => nomatch he)
    have ha := honly a (by rw [show P.mpc x.mon a = _ from hwait]; rfl)
    rw [(hy.token.only hq).2 b hb, ha]

/-- **Leaving** at the end of `put_forks`. -/
theorem putLast (h : PhiMonInv P x) (hi : x.mon.current = P.philosopher i) (hpc : x.stage i = .putRight)
    (hs : MonStep P.mt x.mon .leave y) : PhiMonInv P (x.goto i y .thinking) := by
  obtain ⟨hactive, hmpc, hq, -⟩ := h.mon.leave_spec hs
  rw [hi] at hactive
  have hthinking := (h.each i).of_thinking (.inr (.inr (.inr hpc)))
  have hnone := h.no_signaller hactive (by rw [hpc]; exact fun he => nomatch he)
  refine h.stepped hi (h.mon.step hs) hmpc (hthinking ▸ .thinking) (h.each_same fun k _ => hq k) h.apart (h.starving_same fun he => ?_)
    (signals_none hi hmpc hnone (fun he => nomatch he) _)
  exact nomatch hpc.symm.trans he

/-- A step in which nobody gets further than he is. -/
theorem moved (h : PhiMonInv P x) (hi : x.mon.current = P.philosopher i) (hy : MonInv P.mt y)
    (hmpc : y.mpc = Function.update x.mon.mpc x.mon.current p) (hself : PhiIn i (P.Waits y i) (x.stage i) p (x.state i))
    (hq : ∀ k, k ≠ i → y.sys.k.waitQueue (.sem (P.mt.cv k)) = x.mon.sys.k.waitQueue (.sem (P.mt.cv k)))
    (hplace : p.place = some none → (P.mpc x.mon i).place = some none) (hholds : ∀ q, y.Holds P.mt q → x.mon.Holds P.mt q) :
    PhiMonInv P { x with mon := y } := by
  have hstep := h.stepped hi hy hmpc hself (h.each_same hq) h.apart (h.starving_same id)
    (h.signals_same hi hmpc hplace hholds id)
  rw [Function.update_eq_self] at hstep
  exact hstep

theorem down (h : PhiMonInv P x) (hs : MonStep P.mt x.mon .down y) : PhiMonInv P { x with mon := y } := by
  have hy := h.mon.step hs
  obtain ⟨hholds, ⟨hpc, hmpc, hq⟩ | ⟨j, hpc, hmpc, hqueue, hq⟩⟩ := h.mon.down_spec hs
  · obtain ⟨i, hi⟩ := h.within x.mon.current (by rw [hpc]; exact fun he => nomatch he)
    rw [hi] at hpc
    refine h.moved hi hy hmpc ?_ (fun k _ => hq k) (fun _ => by rw [show P.mpc x.mon i = _ from hpc]; rfl) fun q => (hholds q).mp
    have hold := h.each i
    rw [show P.mpc x.mon i = _ from hpc] at hold
    exact hold.signals rfl (.inr rfl)
  · obtain ⟨i, hi⟩ := h.within x.mon.current (by rw [hpc]; exact fun he => nomatch he)
    rw [hi] at hpc
    have hold := h.each i
    rw [show P.mpc x.mon i = _ from hpc] at hold
    obtain ⟨rfl, hv, hst⟩ := hold.of_released
    refine h.moved hi hy hmpc ?_ hq (fun he => nomatch he) fun q => (hholds q).mp
    rw [hv, hst]
    refine .waiting ?_
    rw [PhiCondvar.Waits, hqueue, hi]
    exact List.mem_append_right _ (List.mem_singleton_self _)

/-- **Coming back** from one of the queues. -/
theorem back (h : PhiMonInv P x) (hs : MonStep P.mt x.mon .back y) : PhiMonInv P { x with mon := y } := by
  have hy := h.mon.step hs
  obtain ⟨hholds, hmpc, ⟨n, hsem, hmem⟩, hq⟩ := h.mon.back_spec hs
  obtain ⟨i, hi⟩ := h.within x.mon.current (by
    intro hout
    rw [hout] at hsem
    exact nomatch hsem)
  refine h.moved hi hy hmpc ?_ (fun k _ => hq k) (fun he => nomatch he) fun q hq => ?_
  · rw [hi] at hsem hmem
    exact (h.each i).back hsem fun hn hw => hmem (by rw [hn]; exact hw)
  · have hactive : y.mpc x.mon.current = .active := by rw [hmpc, Function.update_self]
    rw [(hy.token.only (.inl hactive)).2 q hq]
    exact hholds

theorem other {l : Label} (h : PhiMonInv P x) (hs : MonStep P.mt x.mon (.other l) y) : PhiMonInv P { x with mon := y } := by
  obtain ⟨hmpc, hholds, hq⟩ := h.mon.other_spec hs
  have hsame : ∀ k, P.mpc y k = P.mpc x.mon k := fun k => congrFun hmpc _
  refine ⟨h.mon.step hs, fun q hq => h.within q (hmpc ▸ hq), fun k => ?_, h.apart, h.starving, fun k hk => ?_⟩
  · show PhiIn k (P.Waits y k) (x.stage k) (P.mpc y k) (x.state k)
    rw [hsame, PhiCondvar.Waits, hq]
    exact h.each k
  · obtain ⟨honly, htoken⟩ := h.signals k (hsame k ▸ hk)
    exact ⟨fun k' hk' => honly k' (hsame k' ▸ hk'), fun b hb => htoken b ((hholds b).mp hb)⟩

/-- **The step lemma.** -/
theorem step {x' : PhiMon N} {o : Option (Fin N)} (hN : 3 ≤ N) (h : PhiMonInv P x) (hs : PhiMonStep P x o x') : PhiMonInv P x' := by
  cases hs with
  | take hi hpc hs => exact h.door hi (.inl ⟨hpc, rfl⟩) hs
  | put hi hpc hs => exact h.door hi (.inr ⟨hpc, rfl⟩) hs
  | test hi hpc ht hj hs =>
    obtain rfl := hpc
    exact h.test hN hi ht hj hs
  | testNone hi hpc ht hj =>
    obtain rfl := hpc
    exact h.testNone hN hi ht hj
  | wait hi hpc hst hs => exact h.wait hi hpc hst hs
  | waitNone hi hpc hst => exact h.waitNone hi hpc hst
  | takeLast hi hpc hs => exact h.takeLast hi hpc hs
  | putLast hi hpc hs => exact h.putLast hi hpc hs
  | inside hl hs =>
    rcases hl with rfl | rfl
    · exact h.down hs
    · exact h.back hs
  | other hs he hexit => exact h.other hs

theorem init {semValue : Nat → Int} (h : PhiMonInit P semValue x) : PhiMonInv P x := by
  obtain ⟨hmon, hstage, hstate⟩ := h
  have hmpc : x.mon.mpc = fun _ => .out := hmon.2.2.2.2.2.1
  have hthinking : ∀ i, x.state i = .thinking := congrFun hstate
  refine ⟨.init hmon, fun q hq => absurd (congrFun hmpc q) hq, fun i => ?_, fun i hi => ?_, fun j hj => ?_, fun i hi => ?_⟩
  · rw [hthinking, show x.stage i = _ from congrFun hstage i, show P.mpc x.mon i = _ from congrFun hmpc _]
    exact .thinking
  · exact nomatch (hthinking i).symm.trans hi
  · exact nomatch (hthinking j).symm.trans hj.1
  · rw [show P.mpc x.mon i = _ from congrFun hmpc _] at hi
    exact nomatch hi

end PhiMonInv

/-- The runs of the kernel with philosophers that use a monitor. -/
abbrev PhiMonReaches (P : PhiCondvar N) (semValue : Nat → Int) : PhiMon N → Prop :=
  Reaches (PhiMonInit P semValue) (PhiMonStep P) fun _ _ => True

theorem phiMonReaches_inv {semValue : Nat → Int} (hN : 3 ≤ N) (h : PhiMonReaches P semValue x) : PhiMonInv P x :=
  h.invariant (fun _ h0 => .init h0) fun _ _ _ hinv _ hs => hinv.step hN hs

/-- **The dining philosophers**, with semaphores and with a monitor. No two neighbours eat; a philosopher that has come
    back from `take_forks` eats; a semaphore `s[i]` is 0 or 1; and when the mutex is free nobody is hungry between two
    neighbours that do not eat. -/
theorem philosophers_reached (hN : 3 ≤ N) (semValue : Nat → Int) :
    (∀ (P : PhiSema N) (x : PhiSys N), PhiReaches P semValue x →
      (∀ i, x.state i = .eating → x.state (left i) ≠ .eating ∧ x.state (right i) ≠ .eating) ∧
      (∀ i, x.pc i = ⟨.eating, false⟩ → x.state i = .eating) ∧
      (∀ i, x.sys.k.semValue (P.s i) = 0 ∨ x.sys.k.semValue (P.s i) = 1) ∧
      (x.sys.k.semValue P.mutex = 1 →
        ∀ i, ¬ (x.state i = .hungry ∧ x.state (left i) ≠ .eating ∧ x.state (right i) ≠ .eating))) ∧
    ∀ (P : PhiCondvar N) (x : PhiMon N), PhiMonReaches P semValue x →
      (∀ i, x.state i = .eating → x.state (left i) ≠ .eating ∧ x.state (right i) ≠ .eating) ∧
      (∀ i, x.stage i = .eating → x.state i = .eating) ∧
      (x.mon.sys.k.semValue P.mt.mutex = 1 →
        ∀ i, ¬ (x.state i = .hungry ∧ x.state (left i) ≠ .eating ∧ x.state (right i) ≠ .eating)) := by
  have hboth : ∀ st : Fin N → PhiState, NeighboursApart st → ∀ i, st i = .eating → st (left i) ≠ .eating ∧ st (right i) ≠ .eating := by
    intro st hst i hi
    refine ⟨fun hl => hst (left i) hl ?_, hst i hi⟩
    rw [right_left]
    exact hi
  refine ⟨fun P x h => ?_, fun P x h => ?_⟩
  · have hinv := phiReaches_inv hN h
    refine ⟨hboth _ hinv.apart, fun i hi => ?_, fun i => (hinv.each i).value, fun hone i hi => ?_⟩
    · have hwaits : ¬ P.Waits x.sys.k i := hinv.not_waits (by rw [hi]; exact fun he => nomatch he)
      have hold := hinv.each i
      rw [hi] at hold
      exact (hold.1.resolve_left fun he => hwaits he.1).2
    · -- somebody is in the middle of its tests, and has the mutex
      obtain ⟨a, ha, -⟩ := hinv.starving i hi
      have hzero := (hinv.token.only (.inl (PhiPc.inMutex_of_putLeft ha))).1
      omega
  · have hinv := phiMonReaches_inv hN h
    refine ⟨hboth _ hinv.apart, fun i hi => (hinv.each i).of_eating (.inl hi), fun hone i hi => ?_⟩
    obtain ⟨a, ha, -⟩ := hinv.starving i hi
    have heach := hinv.each a
    rw [ha] at heach
    rcases heach.of_putLeft with hactive | hplace
    · have hzero := (hinv.mon.token.only (.inl hactive)).1
      omega
    · have hpos := hinv.mon.nextCount_pos hplace
      have hfree := hinv.mon.free hone
      omega

/-- `initproc` is a philosopher that gets to eat; the other two are not there yet. -/
theorem philosophers_reached_eat : (∃ x : PhiSys 3, x.pc 0 = ⟨.eating, false⟩ ∧ x.state 1 ≠ .eating) ∧
    ∃ x : PhiMon 3, x.stage 0 = .eating ∧ x.state 2 ≠ .eating := by
  let v : Nat → Int := fun i => if i = 0 then 1 else 0
  have hv : ∀ i, 0 ≤ v i := fun i => by show 0 ≤ (if i = 0 then 1 else 0 : Int); split <;> decide
  have hvs : ∀ i, v (i + 1) = 0 := fun i => if_neg (Nat.succ_ne_zero i)
  let P : PhiSema 3 := ⟨fun i => i + 1, 0, fun i => i + 1, fun i j he => Fin.ext (Nat.succ.inj he), fun i he => (by cases he),
    fun i j he => Fin.ext (Nat.succ.inj he)⟩
  let mt : Monitor 3 := ⟨0, 1, fun i => i + 2, by decide, fun i he => (by cases he), fun i he => (by cases Nat.succ.inj he),
    fun i j he => Fin.ext (Nat.succ.inj (Nat.succ.inj he))⟩
  let C : PhiCondvar 3 := ⟨fun i => i + 1, mt, fun i j he => Fin.ext (Nat.succ.inj he)⟩
  have hrun : ((Sys.boot v 1).bind fun s0 => (s0.next (.call .yield)).bind fun s1 => (s1.next .switch).bind fun s2 =>
      (s2.next (.call (.down 0))).bind fun s3 => (s3.next (.call (.up 1))).bind fun s4 => (s4.next (.call (.up 0))).bind fun s5 =>
      (s5.next (.call (.down 1))).bind fun s6 => (s3.next (.call (.up 0))).map fun s7 =>
        ([s1.events, s2.events], [s2.k.current, s3.k.current, s4.k.current, s5.k.current], [s3.pc 1, s6.pc 1])) =
      some ([[.other], [.other, .other]], [1, 1, 1, 1], [.run, .run]) := by decide +kernel
  obtain ⟨s0, hs0, hrun⟩ := Option.bind_eq_some_iff.mp hrun
  obtain ⟨s1, hs1, hrun⟩ := Option.bind_eq_some_iff.mp hrun
  obtain ⟨s2, hs2, hrun⟩ := Option.bind_eq_some_iff.mp hrun
  obtain ⟨s3, hs3, hrun⟩ := Option.bind_eq_some_iff.mp hrun
  obtain ⟨s4, hs4, hrun⟩ := Option.bind_eq_some_iff.mp hrun
  obtain ⟨s5, hs5, hrun⟩ := Option.bind_eq_some_iff.mp hrun
  obtain ⟨s6, hs6, hrun⟩ := Option.bind_eq_some_iff.mp hrun
  obtain ⟨s7, hs7, hfacts⟩ := Option.map_eq_some_iff.mp hrun
  obtain ⟨⟨he1, he2⟩, ⟨hcur2, hcur3, hcur4, hcur5⟩, hpc3, hpc6⟩ := by
    simpa only [Prod.mk.injEq, List.cons.injEq, and_true] using hfacts
  have hstart := sysStart_boot (by decide) hs0
  have he0 : s0.events = [] := by
    obtain ⟨-, -, -, -, he⟩ := hstart
    exact he
  refine ⟨?_, ?_⟩
  · let x0 : PhiSys 3 := ⟨s0, fun _ => ⟨.thinking, false⟩, fun _ => .thinking⟩
    have h0 : PhiReaches P v x0 := .start ⟨hv, rfl, fun i => hvs i, hstart, rfl, rfl⟩
    have h1 : PhiReaches P v { x0 with sys := s1 } := h0.next trivial
      (.other (Sys.step_of_next hs1) (he1.trans (congrArg _ he0.symm)) (fun _ _ => id) (fun he => by cases he) fun _ he => by cases he)
    have h2 : PhiReaches P v { x0 with sys := s2 } := h1.next trivial
      (.other (Sys.step_of_next hs2) (he2.trans (congrArg _ he1.symm)) (fun _ _ => id) (fun he => by cases he) fun _ he => by cases he)
    let x3 : PhiSys 3 := ⟨s3, Function.update x0.pc 0 ⟨.takeIn, false⟩, x0.state⟩
    have h3 : PhiReaches P v x3 := by
      have hstep := h2.next trivial (.take (i := 0) hcur2 rfl (Sys.step_of_next hs3))
      rw [PhiSys.called, show s3.pc ({ x0 with sys := s2 } : PhiSys 3).sys.k.current = .run by
        rw [show ({ x0 with sys := s2 } : PhiSys 3).sys.k.current = 1 from hcur2, hpc3]] at hstep
      exact hstep
    let st : Fin 3 → PhiState := Function.update x0.state 0 .hungry
    have htest : phiTest st 0 := show phiTest (Function.update (fun _ : Fin 3 => PhiState.thinking) 0 .hungry) 0 by decide
    let x4 : PhiSys 3 := { x3.goto 0 s4 .takeTested with state := Function.update st 0 .eating }
    have h4 : PhiReaches P v x4 := h3.next trivial
      (.test (i := 0) (j := 0) (v := .takeIn) hcur3 rfl .take htest (Sys.step_of_next hs4))
    have h5 : PhiReaches P v (x4.goto 0 s5 .takeLast) := h4.next trivial (.takeUp (i := 0) hcur4 rfl (Sys.step_of_next hs5))
    have h6 := h5.next trivial (.takeLast (i := 0) hcur5 rfl (Sys.step_of_next hs6))
    rw [PhiSys.called, show s6.pc (x4.goto 0 s5 .takeLast).sys.k.current = .run by
      rw [show (x4.goto 0 s5 .takeLast).sys.k.current = 1 from hcur5, hpc6]] at h6
    have heating := ((philosophers_reached (by decide) v).1 P _ h6).2.1 0 rfl
    exact ⟨_, rfl, (((philosophers_reached (by decide) v).1 P _ h6).1 0 heating).2⟩
  · let x0 : MonSys 3 := ⟨s0, fun _ => .out, 0, fun _ => 0⟩
    let st : Fin 3 → PhiState := fun _ => .thinking
    have h0 : PhiMonReaches C v ⟨x0, fun _ => .thinking, st⟩ :=
      .start ⟨⟨hv, rfl, rfl, fun i => hvs (i + 1), hstart, rfl, rfl, rfl⟩, rfl, rfl⟩
    have h1 : PhiMonReaches C v ⟨{ x0 with sys := s1 }, fun _ => .thinking, st⟩ := h0.next trivial
      (.other (.other (Sys.step_of_next hs1) (he1.trans (congrArg _ he0.symm)) (fun _ _ => id) (fun _ _ => .inl rfl) (fun _ => rfl)
        fun _ _ => rfl) (he1.trans (congrArg _ he0.symm)) fun _ he => by cases he)
    have h2 : PhiMonReaches C v ⟨{ x0 with sys := s2 }, fun _ => .thinking, st⟩ := h1.next trivial
      (.other (.other (Sys.step_of_next hs2) (he2.trans (congrArg _ he1.symm)) (fun _ _ => id) (fun _ _ => .inl rfl) (fun _ => rfl)
        fun _ _ => rfl) (he2.trans (congrArg _ he1.symm)) fun _ he => by cases he)
    let x3 : MonSys 3 := ⟨s3, Function.update x0.mpc 1 .active, 0, fun _ => 0⟩
    have henter : MonStep mt { x0 with sys := s2 } .enter x3 := by
      have hstep : MonStep mt { x0 with sys := s2 } .enter _ := .enter rfl (Sys.step_of_next hs3)
      rw [MonSys.called, show ({ x0 with sys := s2 } : MonSys 3).current = 1 from hcur2, if_pos hpc3] at hstep
      rw [show x3 = ({ x0 with sys := s2 } : MonSys 3).arrived s3 .entering by
        show x3 = ({ x0 with sys := s2 } : MonSys 3).goto s3 .active
        rw [MonSys.goto, show ({ x0 with sys := s2 } : MonSys 3).current = 1 from hcur2]]
      exact hstep
    have h3 := h2.next trivial (.take (i := 0) hcur2 rfl henter)
    have hin : x3.current = 1 ∧ x3.mpc x3.current = .active := by
      have hcur : x3.current = 1 := hcur3
      rw [hcur]
      exact ⟨rfl, rfl⟩
    have hrun3 : x3.sys.pc x3.current = .run := by rw [hin.1]; exact hpc3
    have htest : phiTest (Function.update st 0 .hungry) 0 :=
      show phiTest (Function.update (fun _ : Fin 3 => PhiState.thinking) 0 .hungry) 0 by decide
    have h4 := h3.next trivial (.test (i := 0) (j := 0) (v := .takeIn) hin.1 rfl .take htest
      (.signalNone hin.2 hrun3 (Int.lt_irrefl 0)))
    have h5 := h4.next trivial (.waitNone (i := 0) ⟨hin.1, hin.2, hrun3⟩ rfl fun he => by cases he)
    have h6 := h5.next trivial (.takeLast (i := 0) hin.1 rfl (.leave (s := s7) hin.2 (Sys.step_of_next hs7)))
    have heating := ((philosophers_reached (by decide) v).2 C _ h6).2.1 0 rfl
    exact ⟨_, rfl, (((philosophers_reached (by decide) v).2 C _ h6).1 0 heating).1⟩

/-! ## Somebody can go on -/

/-- Philosopher `i` waits to get into the monitor, for its condition, or in `cond_signal`. -/
def PhiMon.Waits (P : PhiCondvar N) (x : PhiMon N) (i : Fin N) : Prop :=
  ∃ n, P.mt.IsSem n ∧ P.philosopher i ∈ x.mon.sys.k.waitQueue (.sem n)

namespace PhiMonInv

/-- Who has the monitor can go on. -/
theorem up_of_holds (h : PhiMonInv P x) {q : Nat} (hq : x.mon.Holds P.mt q) :
    ∃ i, q = P.philosopher i ∧ ¬ x.Waits P i ∧ x.stage i ≠ .thinking := by
  have hin : x.mon.mpc q ≠ .out := by
    intro hout
    rw [MonSys.Holds, Protocol.Holds, hout] at hq
    rcases hq with hactive | ⟨n, -, hsem, -⟩
    · cases hactive
    · cases hsem
  obtain ⟨i, rfl⟩ := h.within q hin
  refine ⟨i, rfl, ?_, fun hv => ?_⟩
  · rintro ⟨n, hn, hmem⟩
    exact h.mon.prot.not_mem_of_holds hq hn hmem
  · have heach := h.each i
    rw [hv] at heach
    generalize hmpc : P.mpc x.mon i = p at heach
    generalize x.state i = st at heach
    cases heach with
    | thinking => exact hin hmpc
    | put hput => rcases hput with he | he <;> cases he

/-- While nobody has the monitor, nobody is in `cond_signal` either. -/
theorem no_place (h : PhiMonInv P x) (hone : x.mon.sys.k.semValue P.mt.mutex = 1) {q : Nat} :
    (x.mon.mpc q).place ≠ some none := by
  intro hq
  have hpos := h.mon.nextCount_pos hq
  have hzero := h.mon.free hone
  omega

/-- While nobody has the monitor, whoever eats can go on. -/
theorem up_of_eating (h : PhiMonInv P x) (hfree : ∀ q, ¬ x.mon.Holds P.mt q) (hone : x.mon.sys.k.semValue P.mt.mutex = 1)
    (hi : x.state i = .eating) : ¬ x.Waits P i ∧ x.stage i ≠ .thinking := by
  have heach := h.each i
  rw [hi] at heach
  have hidle : P.mpc x.mon i ≠ .active := fun hactive => hfree (P.philosopher i) (.inl hactive)
  refine ⟨?_, fun hv => ?_⟩
  · rintro ⟨n, hn, hmem⟩
    have hsem : (P.mpc x.mon i).sem P.mt = some n := h.mon.prot.sem_of_mem hn hmem
    rcases hn with rfl | rfl | ⟨j, rfl⟩
    · have hnil := h.mon.prot.sys.kern.queue.empty P.mt.mutex (by omega)
      rw [hnil] at hmem
      exact absurd hmem List.not_mem_nil
    · have hplace : (P.mpc x.mon i).place = some none := by
        rw [MPc.signalling_of_sem hsem]
        rfl
      exact h.no_place hone hplace
    · rw [MPc.waiting_of_sem hsem] at heach
      obtain ⟨rfl, hv⟩ := heach.of_waiting
      rw [hv] at heach
      cases heach with
      | fed hnot => exact hnot hmem
  · rw [hv] at heach
    exact absurd (heach.of_thinking (.inl rfl)) (by decide)

/-- **No deadlock with a monitor.** -/
theorem goes_on (h : PhiMonInv P x) (hi : x.Waits P i) : ∃ j, ¬ x.Waits P j ∧ x.stage j ≠ .thinking := by
  rcases h.mon.token with ⟨hone, hfree⟩ | ⟨-, q, hq, -⟩
  · obtain ⟨n, hn, hmem⟩ := hi
    have hsem : (P.mpc x.mon i).sem P.mt = some n := h.mon.prot.sem_of_mem hn hmem
    rcases hn with rfl | rfl | ⟨j, rfl⟩
    · have hnil := h.mon.prot.sys.kern.queue.empty P.mt.mutex (by omega)
      rw [hnil] at hmem
      exact absurd hmem List.not_mem_nil
    · have hplace : (P.mpc x.mon i).place = some none := by
        rw [MPc.signalling_of_sem hsem]
        rfl
      exact absurd hplace (h.no_place hone)
    · -- it is hungry, so one of its neighbours eats
      have heach := h.each i
      rw [MPc.waiting_of_sem hsem] at heach
      obtain ⟨rfl, hv⟩ := heach.of_waiting
      rw [hv] at heach
      have hhungry : x.state i = .hungry := by
        generalize x.state i = st at heach
        cases heach with
        | waiting => rfl
        | fed hnot => exact absurd hmem hnot
        | put hv hp => rcases hp with he | he <;> cases he
      by_cases hl : x.state (left i) = .eating
      · exact ⟨left i, h.up_of_eating hfree hone hl⟩
      · by_cases hr : x.state (right i) = .eating
        · exact ⟨right i, h.up_of_eating hfree hone hr⟩
        · obtain ⟨a, ha, -⟩ := h.starving i ⟨hhungry, hl, hr⟩
          have hput := h.each a
          rw [ha] at hput
          rcases hput.of_putLeft with hactive | hplace
          · exact absurd (.inl hactive) (hfree (P.philosopher a))
          · exact absurd hplace (h.no_place hone)
  · obtain ⟨j, -, hj⟩ := h.up_of_holds hq
    exact ⟨j, hj⟩

end PhiMonInv

/-- **The philosophers never block each other for good.** Whenever one of them waits, another one neither waits nor thinks. -/
theorem philosophers_go_on (hN : 3 ≤ N) (semValue : Nat → Int) :
    (∀ (P : PhiSema N) (x : PhiSys N), PhiReaches P semValue x →
      ∀ i, x.Waits P i → ∃ j, ¬ x.Waits P j ∧ (x.pc j).stage ≠ .thinking) ∧
    ∀ (P : PhiCondvar N) (x : PhiMon N), PhiMonReaches P semValue x →
      ∀ i, x.Waits P i → ∃ j, ¬ x.Waits P j ∧ x.stage j ≠ .thinking :=
  ⟨fun _ _ h _ hi => (phiReaches_inv hN h).goes_on hi, fun _ _ h _ hi => (phiMonReaches_inv hN h).goes_on hi⟩

/-- The first philosopher is switched off in `take_forks`, and the second one waits for the mutex. -/
theorem philosophers_go_on_taking :
    (∃ (P : PhiSema 3) (x : PhiSys 3), x.Waits P 1 ∧ ∃ j, ¬ x.Waits P j ∧ (x.pc j).stage ≠ .thinking) ∧
    ∃ (P : PhiCondvar 3) (x : PhiMon 3), x.Waits P 1 ∧ ∃ j, ¬ x.Waits P j ∧ x.stage j ≠ .thinking := by
  let v : Nat → Int := fun i => if i = 0 then 1 else 0
  have hv : ∀ i, 0 ≤ v i := by
    intro i
    show 0 ≤ (if i = 0 then 1 else 0 : Int)
    split <;> decide
  have hvs : ∀ i, v (i + 1) = 0 := fun i => if_neg (Nat.succ_ne_zero i)
  let P : PhiSema 3 := ⟨fun i => i + 1, 0, fun i => i + 1, fun i j he => Fin.ext (Nat.succ.inj he), fun i he => (by cases he),
    fun i j he => Fin.ext (Nat.succ.inj he)⟩
  let mt : Monitor 3 := ⟨0, 1, fun i => i + 2, by decide, fun i he => (by cases he), fun i he => (by cases Nat.succ.inj he),
    fun i j he => Fin.ext (Nat.succ.inj (Nat.succ.inj he))⟩
  let C : PhiCondvar 3 := ⟨fun i => i + 1, mt, fun i j he => Fin.ext (Nat.succ.inj he)⟩
  have hrun : ((Sys.boot v 1).bind fun s0 => (s0.next (.call .yield)).bind fun s1 => (s1.next .switch).bind fun s2 =>
      (s2.next (.call (.fork 2))).bind fun s3 => (s3.next (.call (.down 0))).bind fun s4 => (s4.next (.call .yield)).bind fun s5 =>
      (s5.next .switch).bind fun s6 => (s6.next (.call (.down 0))).map fun s7 =>
        ([s1.events, s2.events, s3.events, s4.events, s5.events, s6.events],
          [[s3.k.current, s4.k.current, s6.k.current], s7.k.waitQueue (.sem 0)], [s4.pc 1, s7.pc 2])) =
      some ([[.other], [.other, .other], [.fork 2, .other, .other], [.took 0 1, .fork 2, .other, .other],
          [.other, .took 0 1, .fork 2, .other, .other], [.other, .other, .took 0 1, .fork 2, .other, .other]],
        [[1, 1, 2], [2]], [.run, .pre (.down 0)]) := by decide +kernel
  obtain ⟨s0, hs0, hrun⟩ := Option.bind_eq_some_iff.mp hrun
  obtain ⟨s1, hs1, hrun⟩ := Option.bind_eq_some_iff.mp hrun
  obtain ⟨s2, hs2, hrun⟩ := Option.bind_eq_some_iff.mp hrun
  obtain ⟨s3, hs3, hrun⟩ := Option.bind_eq_some_iff.mp hrun
  obtain ⟨s4, hs4, hrun⟩ := Option.bind_eq_some_iff.mp hrun
  obtain ⟨s5, hs5, hrun⟩ := Option.bind_eq_some_iff.mp hrun
  obtain ⟨s6, hs6, hrun⟩ := Option.bind_eq_some_iff.mp hrun
  obtain ⟨s7, hs7, hfacts⟩ := Option.map_eq_some_iff.mp hrun
  simp only [Prod.mk.injEq, List.cons.injEq, and_true] at hfacts
  obtain ⟨⟨he1, he2, he3, he4, he5, he6⟩, ⟨⟨hcur3, hcur4, hcur6⟩, hqueue⟩, hpc4, hpc7⟩ := hfacts
  have hstart := sysStart_boot (by decide) hs0
  have he0 : s0.events = [] := by
    obtain ⟨-, -, -, -, he⟩ := hstart
    exact he
  refine ⟨?_, ?_⟩
  · let x0 : PhiSys 3 := ⟨s0, fun _ => ⟨.thinking, false⟩, fun _ => .thinking⟩
    have h0 : PhiReaches P v x0 := .start ⟨hv, rfl, fun i => hvs i, hstart, rfl, rfl⟩
    have h1 : PhiReaches P v { x0 with sys := s1 } := h0.next trivial
      (.other (Sys.step_of_next hs1) (he1.trans (congrArg _ he0.symm)) (fun _ _ => id) (fun he => by cases he) fun _ he => by cases he)
    have h2 : PhiReaches P v { x0 with sys := s2 } := h1.next trivial
      (.other (Sys.step_of_next hs2) (he2.trans (congrArg _ he1.symm)) (fun _ _ => id) (fun he => by cases he) fun _ he => by cases he)
    have h3 : PhiReaches P v { x0 with sys := s3 } := h2.next trivial
      (.other (Sys.step_of_next hs3) (he3.trans (congrArg _ he2.symm)) (fun _ _ => id) (fun he => by cases he) fun _ he => by cases he)
    let x4 : PhiSys 3 := ⟨s4, Function.update x0.pc 0 ⟨.takeIn, false⟩, x0.state⟩
    have h4 : PhiReaches P v x4 := by
      have hstep := h3.next trivial (.take (i := 0) hcur3 rfl (Sys.step_of_next hs4))
      rw [PhiSys.called, show s4.pc ({ x0 with sys := s3 } : PhiSys 3).sys.k.current = .run by
        rw [show ({ x0 with sys := s3 } : PhiSys 3).sys.k.current = 1 from hcur3, hpc4]] at hstep
      exact hstep
    have h5 : PhiReaches P v { x4 with sys := s5 } := h4.next trivial
      (.other (Sys.step_of_next hs5) (he5.trans (congrArg _ he4.symm)) (fun _ _ => id) (fun he => by cases he) fun _ he => by cases he)
    have h6 : PhiReaches P v { x4 with sys := s6 } := h5.next trivial
      (.other (Sys.step_of_next hs6) (he6.trans (congrArg _ he5.symm)) (fun _ _ => id) (fun he => by cases he) fun _ he => by cases he)
    have h7 := h6.next trivial (.take (i := 1) hcur6 rfl (Sys.step_of_next hs7))
    have hwaits : (PhiSys.called { x4 with sys := s6 } 1 s7 .takeIn).Waits P 1 :=
      ⟨0, .inl rfl, show 2 ∈ s7.k.waitQueue (.sem 0) by rw [hqueue]; decide⟩
    exact ⟨P, _, hwaits, (philosophers_go_on (by decide) v).1 P _ h7 1 hwaits⟩
  · let x0 : MonSys 3 := ⟨s0, fun _ => .out, 0, fun _ => 0⟩
    let st : Fin 3 → PhiState := fun _ => .thinking
    have h0 : PhiMonReaches C v ⟨x0, fun _ => .thinking, st⟩ :=
      .start ⟨⟨hv, rfl, rfl, fun i => hvs (i + 1), hstart, rfl, rfl, rfl⟩, rfl, rfl⟩
    have h1 : PhiMonReaches C v ⟨{ x0 with sys := s1 }, fun _ => .thinking, st⟩ := h0.next trivial
      (.other (.other (Sys.step_of_next hs1) (he1.trans (congrArg _ he0.symm)) (fun _ _ => id) (fun _ _ => .inl rfl) (fun _ => rfl)
        fun _ _ => rfl) (he1.trans (congrArg _ he0.symm)) fun _ he => by cases he)
    have h2 : PhiMonReaches C v ⟨{ x0 with sys := s2 }, fun _ => .thinking, st⟩ := h1.next trivial
      (.other (.other (Sys.step_of_next hs2) (he2.trans (congrArg _ he1.symm)) (fun _ _ => id) (fun _ _ => .inl rfl) (fun _ => rfl)
        fun _ _ => rfl) (he2.trans (congrArg _ he1.symm)) fun _ he => by cases he)
    have h3 : PhiMonReaches C v ⟨{ x0 with sys := s3 }, fun _ => .thinking, st⟩ := h2.next trivial
      (.other (.other (Sys.step_of_next hs3) (he3.trans (congrArg _ he2.symm)) (fun _ _ => id) (fun _ _ => .inl rfl) (fun _ => rfl)
        fun _ _ => rfl) (he3.trans (congrArg _ he2.symm)) fun _ he => by cases he)
    let x4 : MonSys 3 := ⟨s4, Function.update x0.mpc 1 .active, 0, fun _ => 0⟩
    have henter : MonStep mt { x0 with sys := s3 } .enter x4 := by
      have hstep : MonStep mt { x0 with sys := s3 } .enter _ := .enter rfl (Sys.step_of_next hs4)
      rw [MonSys.called, show ({ x0 with sys := s3 } : MonSys 3).current = 1 from hcur3, if_pos hpc4] at hstep
      rw [show x4 = ({ x0 with sys := s3 } : MonSys 3).arrived s4 .entering by
        show x4 = ({ x0 with sys := s3 } : MonSys 3).goto s4 .active
        rw [MonSys.goto, show ({ x0 with sys := s3 } : MonSys 3).current = 1 from hcur3]]
      exact hstep
    have h4 := h3.next trivial (.take (i := 0) hcur3 rfl henter)
    have hin : x4.mpc x4.current = .active := by
      rw [show x4.current = 1 from hcur4]
      rfl
    have h5 := h4.next trivial (.other (.other (Sys.step_of_next hs5) (he5.trans (congrArg _ he4.symm)) (fun _ _ => id)
      (fun _ _ => .inr hin) (fun he => by cases he) fun _ he => by cases he) (he5.trans (congrArg _ he4.symm)) fun _ he => by cases he)
    have h6 := h5.next trivial (.other (.other (Sys.step_of_next hs6) (he6.trans (congrArg _ he5.symm)) (fun _ _ => id)
      (fun _ he => by cases he) (fun he => by cases he) fun _ he => by cases he) (he6.trans (congrArg _ he5.symm)) fun _ he => by cases he)
    have hout : ({ x4 with sys := s6 } : MonSys 3).mpc ({ x4 with sys := s6 } : MonSys 3).current = .out := by
      rw [show ({ x4 with sys := s6 } : MonSys 3).current = 2 from hcur6]
      rfl
    have h7 := h6.next trivial (.take (i := 1) hcur6 rfl (.enter hout (Sys.step_of_next hs7)))
    have hwaits : ∀ x : PhiMon 3, x.mon.sys = s7 → x.Waits C 1 := by
      intro x hx
      refine ⟨0, .inl rfl, ?_⟩
      rw [hx, hqueue]
      exact List.mem_singleton_self 2
    exact ⟨C, _, hwaits _ (MonInv.called_sys _ _ _), (philosophers_go_on (by decide) v).2 C _ h7 1 (hwaits _ (MonInv.called_sys _ _ _))⟩

end Ucore
