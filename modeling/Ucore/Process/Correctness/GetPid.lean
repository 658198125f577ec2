import Mathlib.Order.Interval.Finset.Defs
import Mathlib.Data.Int.Interval
import Ucore.Lib.Run
import Ucore.Process.Proc

/-!
# `Process.Correctness.GetPid` — `get_pid`

A pass of `get_pid` over `proc_list` keeps the interval from `last_pid` to `next_safe` clear of the pids seen so far
(`PidClear`). Each time it moves on it leaves a pid behind that is in use, so it gets closer to one that is not, and ends
(`pidsToGo`).
-/

namespace Ucore

/-- None of the pids is in `[last_pid, next_safe)`. -/
def PidClear (pids : List Int) (v : PidVars) : Prop := ∀ pid ∈ pids, ¬ (v.lastPid ≤ pid ∧ pid < v.nextSafe)

/-- The variables during a pass. -/
structure PidVars.Ok (v : PidVars) : Prop where
  pos : 1 ≤ v.lastPid
  lt : v.lastPid < v.nextSafe
  le : v.nextSafe ≤ maxPid

/-- How often `last_pid` has to be moved on to get from `l` to `q`. -/
def pidsToGo (q l : Int) : Nat := if l ≤ q then (q - l).toNat else (maxPid - l + q).toNat

variable {pids pids' seen rest : List Int} {v v' : PidVars} {q l pid : Int} {fuel : Nat}

theorem maxPid_eq : maxPid = 8192 := rfl

theorem pidsToGo_succ (hq : 1 ≤ q) (hne : l ≠ q) (hlt : l + 1 < maxPid) :
    pidsToGo q (l + 1) + 1 ≤ pidsToGo q l := by
  rw [pidsToGo, pidsToGo]
  split <;> split <;> omega

theorem pidsToGo_wrap (hq : 1 ≤ q) (hq' : q < maxPid) (hne : l ≠ q) (hlt : l < maxPid) (hge : l + 1 ≥ maxPid) :
    pidsToGo q 1 + 1 ≤ pidsToGo q l := by
  rw [pidsToGo, pidsToGo]
  split <;> split <;> omega

theorem pidsToGo_le (hq' : q < maxPid) (hl : 1 ≤ l) : pidsToGo q l ≤ 2 * maxPid.toNat := by
  have hmax : maxPid.toNat = 8192 := rfl
  rw [maxPid_eq] at hq'
  rw [pidsToGo, hmax, maxPid_eq]
  split <;> omega

/-- The next `last_pid` is a pid, and one step nearer. -/
theorem pidsToGo_next (hq : 1 ≤ q) (hq' : q < maxPid) (hne : l ≠ q) (hpos : 1 ≤ l) (hlt : l < maxPid) :
    (1 ≤ if l + 1 ≥ maxPid then 1 else l + 1) ∧ (if l + 1 ≥ maxPid then 1 else l + 1) < maxPid ∧
      pidsToGo q (if l + 1 ≥ maxPid then 1 else l + 1) + 1 ≤ pidsToGo q l := by
  have hmax := maxPid_eq
  split
  · next hge => exact ⟨Int.le_refl 1, by omega, pidsToGo_wrap hq hq' hne hlt hge⟩
  · next hge => exact ⟨by omega, by omega, pidsToGo_succ hq hne (by omega)⟩

/-- One more pid is seen, and it is not in what is left of the interval. -/
theorem PidClear.append (h : PidClear seen v) (hlast : v.lastPid ≤ v'.lastPid) (hsafe : v'.nextSafe ≤ v.nextSafe)
    (hpid : ¬ (v'.lastPid ≤ pid ∧ pid < v'.nextSafe)) : PidClear (seen ++ [pid]) v' := by
  intro p hp
  rcases List.mem_append.mp hp with hp | hp
  · have hno := h p hp
    omega
  · rw [List.mem_singleton.mp hp]
    exact hpid

/-- **A pass** ends with an interval that is clear of all the pids. -/
theorem pidScan_spec (hq : 1 ≤ q) (hq' : q < maxPid) (hfree : q ∉ pids) (fuel : Nat) : ∀ {seen rest : List Int} {v : PidVars},
    pids = seen ++ rest → v.Ok → PidClear seen v → pidsToGo q v.lastPid * (pids.length + 1) + rest.length < fuel →
    ∃ v', pidScan pids fuel rest v = some v' ∧ v'.Ok ∧ PidClear pids v' := by
  induction fuel with
  | zero => exact fun _ _ _ hfuel => absurd hfuel (Nat.not_lt_zero _)
  | succ fuel ih =>
    intro seen rest v hpids hok hclear hfuel
    have hpos := hok.pos
    have hlt := hok.lt
    have hle := hok.le
    cases rest with
    | nil =>
      rw [List.append_nil] at hpids
      exact ⟨v, rfl, hok, hpids ▸ hclear⟩
    | cons pid rest =>
      have hsplit : pids = (seen ++ [pid]) ++ rest := by rw [hpids, List.append_assoc, List.singleton_append]
      rw [List.length_cons] at hfuel
      rw [pidScan]
      by_cases hpid : pid = v.lastPid
      · -- the pid is taken, and so it is not the free one
        have hmem : v.lastPid ∈ pids := by
          rw [hpids, ← hpid]
          exact List.mem_append_right seen List.mem_cons_self
        have hne : v.lastPid ≠ q := fun heq => hfree (heq ▸ hmem)
        rw [if_pos hpid]
        by_cases hsafe : v.lastPid + 1 ≥ v.nextSafe
        · -- the interval is used up: the pass starts again
          simp only [if_pos hsafe]
          obtain ⟨hpos', hlt', hgo⟩ := pidsToGo_next hq hq' hne hpos (by omega)
          refine ih (List.nil_append pids).symm ⟨hpos', hlt', Int.le_refl _⟩ (fun _ hmem => absurd hmem List.not_mem_nil) ?_
          have hmul := Nat.mul_le_mul_right (pids.length + 1) hgo
          rw [Nat.succ_mul] at hmul
          show pidsToGo q (if v.lastPid + 1 ≥ maxPid then 1 else v.lastPid + 1) * (pids.length + 1) + pids.length < fuel
          omega
        · rw [if_neg hsafe]
          have hclear' : PidClear (seen ++ [pid]) { v with lastPid := v.lastPid + 1 } :=
            hclear.append (show v.lastPid ≤ v.lastPid + 1 by omega) (Int.le_refl _)
              (show ¬ (v.lastPid + 1 ≤ pid ∧ pid < v.nextSafe) by omega)
          refine ih hsplit ⟨?_, ?_, hle⟩ hclear' ?_
          · show 1 ≤ v.lastPid + 1
            omega
          · show v.lastPid + 1 < v.nextSafe
            omega
          · have hgo := pidsToGo_succ hq hne (show v.lastPid + 1 < maxPid by omega)
            have hmul := Nat.mul_le_mul_right (pids.length + 1) hgo
            rw [Nat.succ_mul] at hmul
            show pidsToGo q (v.lastPid + 1) * (pids.length + 1) + rest.length < fuel
            omega
      · rw [if_neg hpid]
        by_cases hcut : pid > v.lastPid ∧ v.nextSafe > pid
        · -- the interval ends before this pid
          rw [if_pos hcut]
          have hclear' : PidClear (seen ++ [pid]) { v with nextSafe := pid } :=
            hclear.append (Int.le_refl _) (show pid ≤ v.nextSafe by omega) (show ¬ (v.lastPid ≤ pid ∧ pid < pid) by omega)
          refine ih hsplit ⟨hpos, hcut.1, ?_⟩ hclear' ?_
          · show pid ≤ maxPid
            omega
          · show pidsToGo q v.lastPid * (pids.length + 1) + rest.length < fuel
            omega
        · rw [if_neg hcut]
          exact ih hsplit hok (hclear.append (Int.le_refl _) (Int.le_refl _) (by omega)) (by omega)

/-- There are more pids than processes. -/
theorem exists_free (h : (pids.length : Int) ≤ maxProcess) : ∃ q, 1 ≤ q ∧ q < maxPid ∧ q ∉ pids := by
  by_contra hcon
  have hsub : Finset.Ico 1 maxPid ⊆ pids.toFinset := by
    intro q hq
    obtain ⟨h1, h2⟩ := Finset.mem_Ico.mp hq
    by_contra hnot
    exact hcon ⟨q, h1, h2, fun hmem => hnot (List.mem_toFinset.mpr hmem)⟩
  have hcard := (Finset.card_le_card hsub).trans pids.toFinset_card_le
  rw [Int.card_Ico] at hcard
  have hmax : (maxPid - 1).toNat = 8191 := rfl
  have hproc : maxProcess = 4096 := rfl
  omega

/-- None of the pids is in the open interval that `get_pid` has left behind. -/
structure PidInv (pids : List Int) (v : PidVars) : Prop where
  nodup : pids.Nodup
  range : ∀ pid ∈ pids, 1 ≤ pid ∧ pid < maxPid
  clear : ∀ pid ∈ pids, ¬ (v.lastPid < pid ∧ pid < v.nextSafe)
  pos : 1 ≤ v.lastPid
  le : v.nextSafe ≤ maxPid

/-- **`get_pid`** returns, and the pid is new. -/
theorem nextPid_spec (h : PidInv pids v) (hroom : (pids.length : Int) ≤ maxProcess) :
    ∃ v', nextPid pids v = some v' ∧ v'.Ok ∧ PidClear pids v' := by
  obtain ⟨q, hq, hq', hfree⟩ := exists_free hroom
  have hmax := maxPid_eq
  have hfuel : ∀ l, 1 ≤ l → pidsToGo q l * (pids.length + 1) + pids.length < pidFuel pids := by
    intro l hl
    have hmul := Nat.mul_le_mul_right (pids.length + 1) (pidsToGo_le hq' hl)
    rw [pidFuel, Nat.succ_mul]
    omega
  have hscan : ∀ l, 1 ≤ l → l < maxPid → ∃ v', pidScan pids (pidFuel pids) pids { nextSafe := maxPid, lastPid := l } = some v' ∧
      v'.Ok ∧ PidClear pids v' := fun l hl hl' =>
    pidScan_spec hq hq' hfree (pidFuel pids) (List.nil_append pids).symm ⟨hl, hl', Int.le_refl _⟩
      (fun _ hmem => absurd hmem List.not_mem_nil) (hfuel l hl)
  have hpos := h.pos
  have hle := h.le
  rw [nextPid]
  by_cases hwrap : v.lastPid + 1 ≥ maxPid
  · simp only [if_pos hwrap]
    exact hscan 1 (Int.le_refl _) (by omega)
  · simp only [if_neg hwrap]
    by_cases hsafe : v.lastPid + 1 ≥ v.nextSafe
    · rw [if_pos hsafe]
      exact hscan _ (by omega) (by omega)
    · -- the fast path: the next pid is in the interval
      rw [if_neg hsafe]
      refine ⟨_, rfl, ⟨?_, ?_, hle⟩, fun pid hmem => ?_⟩
      · show 1 ≤ v.lastPid + 1
        omega
      · show v.lastPid + 1 < v.nextSafe
        omega
      · show ¬ (v.lastPid + 1 ≤ pid ∧ pid < v.nextSafe)
        have hno := h.clear pid hmem
        omega

/-- The process with the new pid joins the others. -/
theorem PidInv.fork (h : PidInv pids v) (hok : v'.Ok) (hclear : PidClear pids v') (hperm : pids'.Perm (v'.lastPid :: pids)) :
    PidInv pids' v' := by
  have hlt := hok.lt
  have hle := hok.le
  refine ⟨hperm.nodup_iff.mpr (List.nodup_cons.mpr ⟨fun hmem => ?_, h.nodup⟩), ?_, ?_, hok.pos, hle⟩
  · have hno := hclear _ hmem
    omega
  · intro pid hmem
    rcases List.mem_cons.mp (hperm.mem_iff.mp hmem) with rfl | hmem
    · exact ⟨hok.pos, by omega⟩
    · exact h.range pid hmem
  · intro pid hmem
    rcases List.mem_cons.mp (hperm.mem_iff.mp hmem) with rfl | hmem
    · omega
    · have hno := hclear pid hmem
      omega

theorem PidInv.subset (h : PidInv pids v) (hnodup : pids'.Nodup) (hsub : ∀ pid ∈ pids', pid ∈ pids) : PidInv pids' v :=
  ⟨hnodup, fun pid hmem => h.range pid (hsub pid hmem), fun pid hmem => h.clear pid (hsub pid hmem), h.pos, h.le⟩

/-! ## Runs -/

inductive PidCall where
  | fork
  | reap (pid : Int)

/-- The pids in `proc_list`, and the static variables of `get_pid`. -/
abbrev PidState := List Int × PidVars

/-- The list may be in any order. -/
inductive PidStep : PidState → PidCall → PidState → Prop where
  | fork {pids pids' : List Int} {v v' : PidVars} (hroom : (pids.length : Int) < maxProcess)
      (h : nextPid pids v = some v') (hperm : pids'.Perm (v'.lastPid :: pids)) : PidStep (pids, v) .fork (pids', v')
  | reap {pids pids' : List Int} {v : PidVars} {pid : Int} (hperm : pids.Perm (pid :: pids')) :
      PidStep (pids, v) (.reap pid) (pids', v)

/-- `static int next_safe = MAX_PID, last_pid = MAX_PID;` -/
def PidInit (a : PidState) : Prop := a = ([], { nextSafe := maxPid, lastPid := maxPid })

/-- **The step lemma.** -/
theorem pidStep_inv {a b : PidState} {c : PidCall} (h : PidInv a.1 a.2) (hs : PidStep a c b) : PidInv b.1 b.2 := by
  cases hs with
  | fork hroom hrun hperm =>
    obtain ⟨v1, hrun1, hok, hclear⟩ := nextPid_spec h (Int.le_of_lt hroom)
    obtain rfl := Option.some.inj (hrun.symm.trans hrun1)
    exact h.fork hok hclear hperm
  | reap hperm =>
    have hnodup := (hperm.nodup_iff.mp h.nodup)
    exact h.subset (List.nodup_cons.mp hnodup).2 fun pid hmem => hperm.mem_iff.mpr (List.mem_cons_of_mem _ hmem)

/-- **The run lemma.** -/
theorem pidReaches_inv {a : PidState} (h : Reaches PidInit PidStep (fun _ _ => True) a) : PidInv a.1 a.2 := by
  refine h.invariant (I := fun a => PidInv a.1 a.2) ?_ fun a c b ha _ hs => pidStep_inv ha hs
  rintro _ rfl
  have hnone : ∀ pid : Int, pid ∉ ([] : List Int) := fun _ => List.not_mem_nil
  exact ⟨.nil, fun pid hmem => absurd hmem (hnone pid), fun pid hmem => absurd hmem (hnone pid), by decide, Int.le_refl _⟩

/-- **`get_pid`.** In every state reached the open interval from `last_pid` to `next_safe` has no pid in use in it; and
    as long as there are no more than `MAX_PROCESS` processes a call returns, with a pid that none of them carries. -/
theorem get_pid_fresh {pids : List Int} {v : PidVars} (h : Reaches PidInit PidStep (fun _ _ => True) (pids, v)) :
    (∀ pid ∈ pids, ¬ (v.lastPid < pid ∧ pid < v.nextSafe)) ∧
    ((pids.length : Int) ≤ maxProcess → ∃ v', nextPid pids v = some v' ∧ 1 ≤ v'.lastPid ∧ v'.lastPid < maxPid ∧
      v'.lastPid ∉ pids ∧ ∀ pid ∈ v'.lastPid :: pids, ¬ (v'.lastPid < pid ∧ pid < v'.nextSafe)) := by
  have hinv : PidInv pids v := pidReaches_inv h
  refine ⟨hinv.clear, fun hroom => ?_⟩
  obtain ⟨v', hrun, hok, hclear⟩ := nextPid_spec hinv hroom
  have hnext := hinv.fork hok hclear (List.Perm.refl _)
  have hlast := hnext.range _ List.mem_cons_self
  exact ⟨v', hrun, hlast.1, hlast.2, (List.nodup_cons.mp hnext.nodup).1, hnext.clear⟩

/-- The second pid after the first process has gone. -/
theorem get_pid_fresh_second : ∃ v', nextPid [] { nextSafe := 8192, lastPid := 1 } = some v' ∧ v'.lastPid = 2 := by
  have hfirst : PidStep ([], { nextSafe := maxPid, lastPid := maxPid }) .fork ([1], { nextSafe := 8192, lastPid := 1 }) :=
    .fork (by decide) (by decide) (List.Perm.refl _)
  have hreap : PidStep ([1], { nextSafe := 8192, lastPid := 1 }) (.reap 1) ([], { nextSafe := 8192, lastPid := 1 }) :=
    .reap (List.Perm.refl _)
  have hstart : Reaches PidInit PidStep (fun _ _ => True) ([], { nextSafe := maxPid, lastPid := maxPid }) := .start rfl
  have hreach := (hstart.next trivial hfirst).next trivial hreap
  obtain ⟨v', hrun, _⟩ := (get_pid_fresh hreach).2 (by decide)
  refine ⟨v', hrun, ?_⟩
  have hval : nextPid [] { nextSafe := 8192, lastPid := 1 } = some { nextSafe := 8192, lastPid := 2 } := by decide
  rw [hval] at hrun
  exact congrArg PidVars.lastPid (Option.some.inj hrun).symm

end Ucore
