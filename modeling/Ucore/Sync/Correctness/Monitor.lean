import Ucore.Lib.Tally
import Ucore.Sync.Correctness.Protocol

/-!
# `Sync.Correctness.Monitor` — who has the monitor

There is one token: it is in the counter of `mutex`, or one process `Holds` it, being active inside or having been
released from one of the queues to become so. The counters of `next` and of the conditions are always 0, because nobody
calls `up` on them unless somebody waits there.
-/

namespace Ucore

variable {numCv : Nat} {m : Monitor numCv} {x y : MonSys numCv} {s s' : Sys} {k k' : Kern} {e : Event} {pc : Pc} {p q i : Nat}
  {j : Fin numCv} {v : MPc numCv} {l : Label}

/-! ## The invariant -/

namespace MPc

/-- What a process is counted for: `some none` in `next_count`, `some (some j)` in the `count` of a condition. -/
def place : MPc numCv → Option (Option (Fin numCv))
  | .signalled  => some none
  | .signalling => some none
  | .released j => some (some j)
  | .waiting j  => some (some j)
  | _           => none

/-- About to call `down`. -/
def Mid : MPc numCv → Prop
  | .signalled  => True
  | .released _ => True
  | _           => False

theorem isSem {i : Nat} (h : v.sem m = some i) : m.IsSem i := by
  cases v with
  | entering => exact .inl (Option.some.inj h).symm
  | signalling => exact .inr (.inl (Option.some.inj h).symm)
  | waiting j => exact .inr (.inr ⟨j, (Option.some.inj h).symm⟩)
  | out => exact nomatch h
  | active => exact nomatch h
  | signalled => exact nomatch h
  | released j => exact nomatch h

theorem waiting_of_sem (h : v.sem m = some (m.cv j)) : v = .waiting j := by
  cases v with
  | entering => exact absurd (Option.some.inj h) (m.mutex_ne_cv j)
  | signalling => exact absurd (Option.some.inj h) (m.next_ne_cv j)
  | waiting j' => rw [m.cv_inj (Option.some.inj h)]
  | out => exact nomatch h
  | active => exact nomatch h
  | signalled => exact nomatch h
  | released j' => exact nomatch h

theorem signalling_of_sem (h : v.sem m = some m.next) : v = .signalling := by
  cases v with
  | entering => exact absurd (Option.some.inj h) m.mutex_ne_next
  | signalling => rfl
  | waiting j => exact absurd (Option.some.inj h).symm (m.next_ne_cv j)
  | out => exact nomatch h
  | active => exact nomatch h
  | signalled => exact nomatch h
  | released j => exact nomatch h

end MPc

/-- The protocol of a monitor: the token goes through all its queues. -/
def Monitor.protocol (m : Monitor numCv) : Protocol Nat (MPc numCv) where
  proc := id
  proc_inj := Function.injective_id
  out := .out
  active v := v = .active
  sem _ v := v.sem m
  IsSem := m.IsSem
  Hands := m.IsSem
  sem_out _ := rfl
  sem_active := by
    rintro - _ rfl
    rfl
  sem_isSem _ _ _ := MPc.isSem
  hands_isSem _ := id

/-- The process is active, or has been released to become so. -/
abbrev MonSys.Holds (m : Monitor numCv) (x : MonSys numCv) (p : Nat) : Prop := m.protocol.Holds x.sys x.mpc p

/-- What `MonStep.other` asks for. -/
theorem Monitor.other (hsem : ∀ i, m.IsSem i → ¬ e.OnSem i) (hback : l = .resume → (x.mpc x.current).sem m = none)
    (hexit : ∀ code, e = .exit x.current code → x.mpc x.current = .out) : m.protocol.Other x.sys x.mpc l e where
  sem := hsem
  back hl a ha := by
    obtain rfl : x.current = a := ha
    exact hback hl
  exit code he a ha := by
    obtain rfl : x.current = a := ha
    exact hexit code he

structure MonInv (m : Monitor numCv) (x : MonSys numCv) : Prop where
  prot : m.protocol.Inv x.sys x.mpc
  token : m.protocol.Token m.mutex x.sys x.mpc
  mid : ∀ p, (x.mpc p).Mid → p = x.current ∧ x.sys.pc x.current = .run
  next : x.sys.k.semValue m.next = 0
  cv : ∀ j, x.sys.k.semValue (m.cv j) = 0
  free : x.sys.k.semValue m.mutex = 1 → x.nextCount = 0
  nextCount : x.nextCount = tally x.sys.k.live (fun p => (x.mpc p).place) none
  count : ∀ j, x.count j = tally x.sys.k.live (fun p => (x.mpc p).place) (some j)

namespace MonInv

theorem other (h : MonInv m x) {e : Event} (hs : Step x.sys l s) (he : s.events = e :: x.sys.events)
    (ho : m.protocol.Other x.sys x.mpc l e) (hcall : ∀ c, l = .call c → x.mpc x.current = .out ∨ x.mpc x.current = .active) :
    MonInv m { x with sys := s } := by
  obtain ⟨hprot, hsame⟩ := h.prot.other hs he ho
  have hmutex := hsame.value m.mutex (.inl rfl)
  have hplace : ∀ p, (x.mpc p).place ≠ none → (p ∈ s.k.live ↔ p ∈ x.sys.k.live) := by
    intro p hp
    refine hsame.live p fun hout => hp ?_
    rw [show x.mpc p = .out from hout]
    rfl
  refine ⟨hprot, h.token.of_same hmutex (Protocol.holds_of_same hsame.queue), fun p hp => ?_,
    (hsame.value _ (.inr (.inl rfl))).trans h.next, fun j => (hsame.value _ (.inr (.inr ⟨j, rfl⟩))).trans (h.cv j),
    fun hone => h.free (hmutex.symm.trans hone), ?_, fun j => ?_⟩
  · obtain ⟨rfl, hrun⟩ := h.mid p hp
    rcases l.kinds with ⟨c, rfl⟩ | rfl | ⟨hnocall, hnoback⟩
    · rcases hcall c rfl with hout | hactive
      · exact (hout ▸ hp : (MPc.out : MPc numCv).Mid).elim
      · exact (hactive ▸ hp : (MPc.active : MPc numCv).Mid).elim
    · obtain ⟨b, hpost⟩ := hs.post_of_resume
      exact nomatch hrun.symm.trans hpost
    · obtain ⟨hcur', hpc'⟩ := (h.prot.sys.step_still hs hnocall hnoback).2 hrun
      refine ⟨hcur'.symm, ?_⟩
      show s.pc s.k.current = .run
      rw [hpc', hcur']
      exact hrun
  · exact h.nextCount.trans (congrArg _ (tally_members hplace none).symm)
  · exact (h.count j).trans (congrArg _ (tally_members hplace (some j)).symm)

end MonInv

/-! ## Steps in the monitor -/

/-- The running process has got to `v` with a step of the kernel. -/
abbrev MonSys.stepped (x : MonSys numCv) (k' : Kern) (e : Event) (pc : Pc) (v : MPc numCv) (nc : Int)
    (ct : Fin numCv → Int) : MonSys numCv :=
  { sys := x.sys.move k' e pc, mpc := Function.update x.mpc x.current v, nextCount := nc, count := ct }

namespace MonInv

section
variable {nc : Int} {ct : Fin numCv → Int}

theorem stepped_self : (x.stepped k' e pc v nc ct).mpc x.current = v := Function.update_self x.current v x.mpc

theorem stepped_other (hp : p ≠ x.current) : (x.stepped k' e pc v nc ct).mpc p = x.mpc p :=
  Function.update_of_ne hp v x.mpc

/-- What every step in the monitor keeps. -/
theorem stepped (h : MonInv m x) (hinv : SysInv (x.sys.move k' e pc)) (he : ∀ p, e ≠ .fork p)
    (hlive : k'.live = x.sys.k.live) (hcur : k'.current = x.current)
    (hdown : ∀ i, m.IsSem i → (pc.blocked = some (.down i) ↔ v.sem m = some i)) (hexit : pc.blocked ≠ some .exit)
    (hmid : v.Mid → pc = .run) (hnext : k'.semValue m.next = 0) (hcv : ∀ j, k'.semValue (m.cv j) = 0)
    (htoken : m.protocol.Token m.mutex (x.sys.move k' e pc) (Function.update x.mpc x.current v))
    (hfree : k'.semValue m.mutex = 1 → nc = 0)
    (hnc : nc + (if (x.mpc x.current).place = some none then 1 else 0) = x.nextCount + if v.place = some none then 1 else 0)
    (hct : ∀ j, ct j + (if (x.mpc x.current).place = some (some j) then 1 else 0) =
      x.count j + if v.place = some (some j) then 1 else 0) :
    MonInv m (x.stepped k' e pc v nc ct) := by
  have hlivecur : x.current ∈ x.sys.k.live := h.prot.sys.kern.run.current
  have htally := tally_update (K := x.sys.k.live) (f := fun p => (x.mpc p).place)
    (g := fun p => ((x.stepped k' e pc v nc ct).mpc p).place) (o := v.place) hlivecur fun p _ => by
      by_cases hp : p = x.current
      · rw [if_pos hp, hp, stepped_self]
      · rw [if_neg hp, stepped_other hp]
  -- a counter goes along with what it counts
  have hcounts : ∀ (old new : Int) (a : Option (Fin numCv)), old = tally x.sys.k.live (fun p => (x.mpc p).place) a →
      new + (if (x.mpc x.current).place = some a then 1 else 0) = old + (if v.place = some a then 1 else 0) →
      new = tally x.sys.k.live (fun p => ((x.stepped k' e pc v nc ct).mpc p).place) a := by
    intro old new a hold hnew
    have ht := htally a
    generalize tally x.sys.k.live (fun p => ((x.stepped k' e pc v nc ct).mpc p).place) a = t at ht ⊢
    have hcast := congrArg (Nat.cast (R := Int)) ht
    push_cast at hcast
    omega
  refine ⟨h.prot.stepped rfl hinv he hlive hdown hexit, htoken, fun p hp => ?_, hnext, hcv, hfree, ?_, fun j => ?_⟩
  · by_cases hpc : p = x.current
    · rw [hpc, stepped_self] at hp
      refine ⟨hpc.trans hcur.symm, ?_⟩
      show (if k'.current = x.sys.k.current then pc else _) = .run
      rw [if_pos (show k'.current = x.sys.k.current from hcur)]
      exact hmid hp
    · rw [stepped_other hpc] at hp
      exact absurd (h.mid p hp).1 hpc
  · show nc = ((tally k'.live _ none : Nat) : Int)
    rw [hlive]
    exact hcounts _ _ none h.nextCount hnc
  · show ct j = ((tally k'.live _ (some j) : Nat) : Int)
    rw [hlive]
    exact hcounts _ _ (some j) (h.count j) (hct j)

/-! ### Giving the monitor up -/

/-- As long as the running process is active, those who are counted wait in their queue. -/
theorem queue_ne_nil (h : MonInv m x) (hactive : x.mpc x.current = .active) {a : Option (Fin numCv)}
    (hpos : 0 < tally x.sys.k.live (fun p => (x.mpc p).place) a)
    (hi : ∀ v : MPc numCv, v.place = some a → ¬ v.Mid → v.sem m = some i) : x.sys.k.waitQueue (.sem i) ≠ [] := by
  intro hnil
  have hzero : tally x.sys.k.live (fun p => (x.mpc p).place) a = 0 := by
    refine tally_eq_zero.mpr fun p _ hp => ?_
    have hpc : p ≠ x.current := by
      rintro rfl
      rw [hactive] at hp
      exact nomatch hp
    have hsem := hi _ hp fun hmid => hpc (h.mid p hmid).1
    have hheld : x.Holds m p := .inr ⟨i, MPc.isSem hsem, hsem, by rw [hnil]; exact List.not_mem_nil⟩
    exact hpc ((h.token.only (.inl hactive)).2 p hheld)
  omega

/-- **`up` by an active process** that goes no further hands the monitor over to the first one in the queue. -/
theorem give (h : MonInv m x) (e : Event) (pc : Pc) (hactive : x.mpc x.current = .active) (hi : m.IsSem i)
    (hnil : x.sys.k.waitQueue (.sem i) = [] → i = m.mutex) (hsem : v.sem m = none) (hv : v ≠ .active) :
    m.protocol.Token m.mutex (x.sys.move (x.sys.k.upped i) e pc) (Function.update x.mpc x.current v) ∧
    (x.sys.k.upped i).semValue m.next = 0 ∧ (∀ j, (x.sys.k.upped i).semValue (m.cv j) = 0) ∧
    ((x.sys.k.upped i).semValue m.mutex = 1 → x.sys.k.waitQueue (.sem i) = []) ∧
    ∀ w rest, x.sys.k.waitQueue (.sem i) = w :: rest →
      m.protocol.Holds (x.sys.move (x.sys.k.upped i) e pc) (Function.update x.mpc x.current v) w := by
  obtain ⟨htoken, hone, hhead⟩ := h.prot.give h.token e pc rfl hactive hi hnil hv hsem
  have hvalue : ∀ i', i' ≠ m.mutex → (x.sys.k.upped i).semValue i' = x.sys.k.semValue i' := by
    intro i' hi'
    cases hlist : x.sys.k.waitQueue (.sem i) with
    | nil =>
      rw [Kern.upped_nil hlist, hnil hlist]
      exact Function.update_of_ne hi' _ _
    | cons w rest => exact congrFun (Kern.upped_cons hlist).1 i'
  refine ⟨htoken, (hvalue _ m.mutex_ne_next.symm).trans h.next, fun j => (hvalue _ (m.mutex_ne_cv j).symm).trans (h.cv j), hone,
    fun w rest hlist => ?_⟩
  obtain ⟨b, rfl, -, hb⟩ := hhead w rest hlist
  exact hb

/-- **`cond_signal`** up to its `down`. -/
theorem signal (h : MonInv m x) (hactive : x.mpc x.current = .active) (hcount : x.count j > 0)
    (hs : Step x.sys (.call (.up (m.cv j))) s) : MonInv m { x.goto s .signalled with nextCount := x.nextCount + 1 } ∧
    ∃ w rest, x.sys.k.waitQueue (.sem (m.cv j)) = w :: rest ∧
      ({ x.goto s .signalled with nextCount := x.nextCount + 1 } : MonSys numCv).Holds m w := by
  have hinv := h.prot.sys.after hs
  obtain ⟨-, rfl⟩ := h.prot.sys.step_up hs
  have hfamily := h.prot.sys.kern.sameFamily_upped (m.cv j)
  have hpos : 0 < tally x.sys.k.live (fun p => (x.mpc p).place) (some j) := by
    have hold := h.count j
    omega
  have hne : x.sys.k.waitQueue (.sem (m.cv j)) ≠ [] := by
    refine h.queue_ne_nil hactive hpos fun v hv hmid => ?_
    cases v with
    | waiting j' =>
      obtain rfl := Option.some.inj (Option.some.inj hv)
      rfl
    | released j' => exact absurd trivial hmid
    | out => exact nomatch hv
    | entering => exact nomatch hv
    | active => exact nomatch hv
    | signalled => exact nomatch hv
    | signalling => exact nomatch hv
  obtain ⟨htoken, hnext, hcv, hone, hhead⟩ := h.give (.up (m.cv j) (x.sys.k.waitQueue (.sem (m.cv j))).head?) .run
    hactive (.inr (.inr ⟨j, rfl⟩)) (fun hnil => absurd hnil hne) (v := .signalled) rfl fun he => nomatch he
  refine ⟨h.stepped hinv (fun _ he => nomatch he) hfamily.live (SysInv.upped_current _ _) (fun i _ => ?_) (fun he => nomatch he)
    (fun _ => rfl) hnext hcv htoken (fun he => absurd (hone he) hne) ?_ fun j' => ?_, ?_⟩
  · exact ⟨fun he => (nomatch he), fun he => (nomatch he)⟩
  · simp [hactive, MPc.place]
  · simp [hactive, MPc.place, MonSys.goto]
  · obtain ⟨w, rest, hlist⟩ := List.exists_cons_of_ne_nil hne
    exact ⟨w, rest, hlist, hhead w rest hlist⟩

/-- **Leaving**, in `cond_wait` or at the end. If there is somebody in `cond_signal`, one of them goes on. -/
theorem leaves (h : MonInv m x) (hactive : x.mpc x.current = .active) (hs : Step x.sys (.call (.up (x.exitSem m))) s)
    (hsem : v.sem m = none) (hv : v ≠ .active) (hplace : v.place ≠ some none)
    (hct : ∀ j, ct j = x.count j + if v.place = some (some j) then 1 else 0) :
    MonInv m { x.goto s v with count := ct } ∧ (x.nextCount > 0 →
      ∃ w, x.mpc w = .signalling ∧ ({ x.goto s v with count := ct } : MonSys numCv).Holds m w) := by
  have hinv := h.prot.sys.after hs
  obtain ⟨-, rfl⟩ := h.prot.sys.step_up hs
  have hfamily := h.prot.sys.kern.sameFamily_upped (x.exitSem m)
  have hi : m.IsSem (x.exitSem m) := by
    rw [MonSys.exitSem]
    split
    · exact .inr (.inl rfl)
    · exact .inl rfl
  -- who upped `next` did so because somebody waits there
  have hnil : x.sys.k.waitQueue (.sem (x.exitSem m)) = [] → ¬ x.nextCount > 0 := by
    intro hnil hpos
    rw [MonSys.exitSem, if_pos hpos] at hnil
    have hcount : 0 < tally x.sys.k.live (fun p => (x.mpc p).place) none := by
      have hold := h.nextCount
      omega
    refine h.queue_ne_nil hactive hcount (fun v hv hmid => ?_) hnil
    cases v with
    | signalling => rfl
    | signalled => exact absurd trivial hmid
    | out => exact nomatch hv
    | entering => exact nomatch hv
    | active => exact nomatch hv
    | released j => exact nomatch hv
    | waiting j => exact nomatch hv
  obtain ⟨htoken, hnext, hcv, hone, hhead⟩ := h.give (.up (x.exitSem m) (x.sys.k.waitQueue (.sem (x.exitSem m))).head?) .run
    hactive hi (fun he => if_neg (hnil he)) hsem hv
  refine ⟨h.stepped hinv (fun _ he => nomatch he) hfamily.live (SysInv.upped_current _ _) (fun i _ => ?_) (fun he => nomatch he)
    (fun _ => rfl) hnext hcv htoken (fun he => ?_) ?_ fun j => ?_, fun hpos => ?_⟩
  · rw [hsem]
    exact ⟨fun he => (nomatch he), fun he => (nomatch he)⟩
  · have hzero := hnil (hone he)
    have hold := h.nextCount
    show x.nextCount = 0
    omega
  · have hnone : (x.mpc x.current).place = none := by rw [hactive]; rfl
    simp [hnone, hplace, MonSys.goto]
  · rw [hct j, hactive]
    simp [MPc.place]
  · cases hlist : x.sys.k.waitQueue (.sem (x.exitSem m)) with
    | nil => exact absurd hpos (hnil hlist)
    | cons w rest =>
      obtain ⟨a, hwa, ha⟩ := h.prot.waiter hi (hlist ▸ List.mem_cons_self : w ∈ _)
      obtain rfl : w = a := hwa
      replace ha : (x.mpc w).sem m = some (x.exitSem m) := ha
      rw [MonSys.exitSem, if_pos hpos] at ha
      exact ⟨w, MPc.signalling_of_sem ha, hhead w rest hlist⟩

/-! ### Getting in, and coming back -/

/-- **`down` without a unit**: one more in the queue, and the token stays where it is. -/
theorem blocks (h : MonInv m x) (hs : Step x.sys (.call (.down i)) s) (hi : v.sem m = some i)
    (hno : ¬ x.Holds m x.current) (hzero : ¬ 0 < x.sys.k.semValue i) (hvmid : ¬ v.Mid)
    (hplace : (x.mpc x.current).place = v.place) :
    MonInv m (x.called s v) ∧ ∀ q, (x.called s v).Holds m q ↔ x.Holds m q := by
  have hinv := h.prot.sys.after hs
  obtain ⟨-, ⟨hpos, -⟩ | ⟨-, rfl⟩⟩ := h.prot.sys.step_down hs
  · exact absurd hpos hzero
  have hcalled : x.called (x.sys.move (x.sys.k.blockedOn (.sem i) wtKsem) (.queued i x.current) (.pre (.down i))) v =
      x.stepped (x.sys.k.blockedOn (.sem i) wtKsem) (.queued i x.current) (.pre (.down i)) v x.nextCount x.count := by
    rw [MonSys.called, MonSys.current, Sys.move_pc, if_neg (fun he => nomatch he)]
    rfl
  have hactive : v ≠ .active := by
    rintro rfl
    exact nomatch hi
  obtain ⟨htoken, hsame⟩ := h.token.block (.queued i x.current) (.pre (.down i)) rfl hno hactive hi
  show MonInv m (x.called (x.sys.move (x.sys.k.blockedOn (.sem i) wtKsem) (.queued i x.current) (.pre (.down i))) v) ∧
    ∀ q, (x.called (x.sys.move (x.sys.k.blockedOn (.sem i) wtKsem) (.queued i x.current) (.pre (.down i))) v).Holds m q ↔
      x.Holds m q
  rw [hcalled]
  refine ⟨h.stepped hinv (fun _ he => nomatch he) rfl rfl (fun j _ => ?_) (fun he => (nomatch he)) (fun hm => absurd hm hvmid)
    h.next h.cv htoken h.free (by rw [hplace]) fun j => by rw [hplace], hsame⟩
  rw [hi]
  exact ⟨fun he => congrArg some (Blocked.down.inj (Option.some.inj he)), fun he => congrArg _ (congrArg _ (Option.some.inj he))⟩

/-- **`down(&(mtp->mutex))`** -/
theorem enter (h : MonInv m x) (hout : x.mpc x.current = .out) (hs : Step x.sys (.call (.down m.mutex)) s) :
    MonInv m (x.called s .entering) := by
  have hno : ¬ x.Holds m x.current := by
    rw [MonSys.Holds, Protocol.Holds, hout]
    rintro (he | ⟨_, -, he, -⟩)
    · cases he
    · cases he
  by_cases hpos : 0 < x.sys.k.semValue m.mutex
  · have hinv := h.prot.sys.after hs
    obtain ⟨-, ⟨-, rfl⟩ | ⟨hzero, -⟩⟩ := h.prot.sys.step_down hs
    · obtain ⟨htoken, hone⟩ := h.token.take (a := x.current) (v := MPc.active) (.took m.mutex x.current) .run hpos rfl
      let k' := x.sys.k.setSem m.mutex (x.sys.k.semValue m.mutex - 1)
      have hcalled : x.called (x.sys.move k' (.took m.mutex x.current) .run) .entering =
          x.stepped k' (.took m.mutex x.current) .run .active x.nextCount x.count := by
        rw [MonSys.called, MonSys.current, Sys.move_pc, if_pos rfl]
        rfl
      have hplace : (x.mpc x.current).place = none := by rw [hout]; rfl
      show MonInv m (x.called (x.sys.move k' (.took m.mutex x.current) .run) .entering)
      rw [hcalled]
      refine h.stepped hinv (fun _ he => by cases he) rfl rfl (fun i _ => ?_) (fun he => by cases he) (fun _ => rfl) ?_ (fun j => ?_)
        htoken (fun _ => h.free hone) (by rw [hplace]; rfl) fun j => by rw [hplace]; rfl
      · exact ⟨fun he => (by cases he), fun he => (by cases he)⟩
      · exact (Function.update_of_ne m.mutex_ne_next.symm _ _).trans h.next
      · exact (Function.update_of_ne (m.mutex_ne_cv j).symm _ _).trans (h.cv j)
    · exact absurd hpos hzero
  · exact (h.blocks hs rfl hno hpos id (by rw [hout]; rfl)).1

/-- The running process is in the middle of `cond_signal` or `cond_wait`. -/
theorem not_holds_mid (hmid : (x.mpc x.current).Mid) : ¬ x.Holds m x.current := by
  rw [MonSys.Holds, Protocol.Holds]
  cases hpc : x.mpc x.current with
  | signalled => rintro (he | ⟨_, _, he, _⟩) <;> cases he
  | released j => rintro (he | ⟨_, _, he, _⟩) <;> cases he
  | out => exact (hpc ▸ hmid : (MPc.out : MPc numCv).Mid).elim
  | entering => exact (hpc ▸ hmid : (MPc.entering : MPc numCv).Mid).elim
  | active => exact (hpc ▸ hmid : (MPc.active : MPc numCv).Mid).elim
  | signalling => exact (hpc ▸ hmid : (MPc.signalling : MPc numCv).Mid).elim
  | waiting j => exact (hpc ▸ hmid : (MPc.waiting j : MPc numCv).Mid).elim

/-- **Coming back** from one of the queues. -/
theorem back (h : MonInv m x) (hi : (x.mpc x.current).sem m = some i) (hs : Step x.sys .resume s) :
    MonInv m (x.arrived s (x.mpc x.current)) ∧ x.Holds m x.current := by
  have hinv := h.prot.sys.after hs
  obtain ⟨hmem, rfl⟩ := h.prot.back (a := x.current) rfl hi hs
  have hholds : x.Holds m x.current := .inr ⟨i, MPc.isSem hi, hi, hmem⟩
  have hzero := (h.token.only hholds).1
  have hdone : ∀ nc ct, nc + (if (x.mpc x.current).place = some none then 1 else 0) = x.nextCount →
      (∀ j, ct j + (if (x.mpc x.current).place = some (some j) then 1 else 0) = x.count j) →
      MonInv m (x.stepped x.sys.k .other .run .active nc ct) := by
    intro nc ct hnc hct
    refine h.stepped hinv (fun _ he => nomatch he) rfl rfl (fun i _ => ?_) (fun he => nomatch he) (fun _ => rfl) h.next h.cv
      (h.token.keep rfl (fun _ _ _ _ => Iff.rfl) (iff_of_true (Protocol.holds_active rfl) hholds)) (fun hone => ?_)
      (hnc.trans (Int.add_zero _).symm) fun j => (hct j).trans (Int.add_zero _).symm
    · exact ⟨fun he => (nomatch he), fun he => (nomatch he)⟩
    · exact nomatch hone.symm.trans hzero
  refine ⟨?_, hholds⟩
  cases hpc : x.mpc x.current with
  | entering =>
    refine hdone x.nextCount x.count ?_ fun j => ?_
    · simp [hpc, MPc.place]
    · simp [hpc, MPc.place]
  | signalling =>
    refine hdone (x.nextCount - 1) x.count ?_ fun j => ?_
    · simp [hpc, MPc.place]
    · simp [hpc, MPc.place]
  | waiting j =>
    refine hdone x.nextCount (Function.update x.count j (x.count j - 1)) ?_ fun j' => ?_
    · simp [hpc, MPc.place]
    · by_cases hj : j' = j
      · subst hj
        simp [hpc, MPc.place]
      · simp [hpc, MPc.place, hj, Ne.symm hj]
  | out => exact nomatch (hpc ▸ hi : (MPc.out : MPc numCv).sem m = some i)
  | active => exact nomatch (hpc ▸ hi : (MPc.active : MPc numCv).sem m = some i)
  | signalled => exact nomatch (hpc ▸ hi : (MPc.signalled : MPc numCv).sem m = some i)
  | released j => exact nomatch (hpc ▸ hi : (MPc.released j : MPc numCv).sem m = some i)

end

/-! ## Runs -/

/-- `down` on a counter that is 0 while the process is in the middle of something. -/
theorem mid_blocks (h : MonInv m x) (hs : Step x.sys (.call (.down i)) s) (hi : v.sem m = some i)
    (hmid : (x.mpc x.current).Mid) (hzero : x.sys.k.semValue i = 0) (hvmid : ¬ v.Mid)
    (hplace : (x.mpc x.current).place = v.place) :
    MonInv m (x.called s v) ∧ ∀ q, (x.called s v).Holds m q ↔ x.Holds m q :=
  h.blocks hs hi (not_holds_mid hmid) (by omega) hvmid hplace

/-- **The step lemma.** -/
theorem step (h : MonInv m x) {l : MonLabel numCv} (hs : MonStep m x l y) : MonInv m y := by
  cases hs with
  | enter hpc hs => exact h.enter hpc hs
  | signal hpc hcount hs => exact (h.signal hpc hcount hs).1
  | signalNone hpc hrun hcount => exact h
  | @wait s j hpc hs =>
    refine (h.leaves (v := .released j) hpc hs rfl (fun he => nomatch he) (fun he => nomatch he) fun j' => ?_).1
    by_cases hj : j' = j
    · subst hj
      simp [MPc.place]
    · simp [MPc.place, hj, Ne.symm hj]
  | leave hpc hs => exact (h.leaves (v := .out) hpc hs rfl (fun he => nomatch he) (fun he => nomatch he) fun j => (Int.add_zero _).symm).1
  | downNext hpc hs => exact (h.mid_blocks hs rfl (by rw [hpc]; trivial) h.next id (by rw [hpc]; rfl)).1
  | downCv hpc hs => exact (h.mid_blocks hs rfl (by rw [hpc]; trivial) (h.cv _) id (by rw [hpc]; rfl)).1
  | back hpc hs => exact (h.back hpc hs).1
  | other hs he hsem hcall hback hexit => exact h.other hs he (Monitor.other hsem hback hexit) hcall

theorem arrived_mpc (x : MonSys numCv) (s : Sys) (v : MPc numCv) :
    (x.arrived s v).mpc = Function.update x.mpc x.current .active := by
  cases v <;> rfl

/-- Until somebody is active, the token stays with the one who was released. -/
theorem holds_step (h : MonInv m x) {l : MonLabel numCv} (hs : MonStep m x l y) (hnone : ∀ q, x.mpc q ≠ .active)
    (hp : x.Holds m p) : y.Holds m p := by
  cases hs with
  | enter hpc hs =>
    have hno : ¬ x.Holds m x.current := by
      intro hc
      rcases hc with he | ⟨_, -, he, -⟩
      · exact hnone _ he
      · replace he : (x.mpc x.current).sem m = _ := he
        rw [hpc] at he
        exact nomatch he
    have hzero := (h.token.only hp).1
    exact ((h.blocks hs rfl hno (by omega) id (by rw [hpc]; rfl)).2 p).mpr hp
  | signal hpc hcount hs => exact absurd hpc (hnone _)
  | signalNone hpc hrun hcount => exact absurd hpc (hnone _)
  | wait hpc hs => exact absurd hpc (hnone _)
  | leave hpc hs => exact absurd hpc (hnone _)
  | downNext hpc hs =>
    exact ((h.mid_blocks hs rfl (by rw [hpc]; trivial) h.next id (by rw [hpc]; rfl)).2 p).mpr hp
  | downCv hpc hs =>
    exact ((h.mid_blocks hs rfl (by rw [hpc]; trivial) (h.cv _) id (by rw [hpc]; rfl)).2 p).mpr hp
  | back hpc hs =>
    -- the only one who can come back
    have hc := (h.token.only hp).2 _ (h.back hpc hs).2
    rw [← hc]
    refine .inl ?_
    rw [arrived_mpc, Function.update_self]
    rfl
  | other hs he hsem hcall hback hexit =>
    have hsame := (h.prot.other hs he (Monitor.other hsem hback hexit)).2
    exact (Protocol.holds_of_same hsame.queue p).mpr hp

/-! ## What a step does -/

theorem counted (h : MonInv m x) {a : Option (Fin numCv)} (hp : (x.mpc p).place = some a) :
    0 < tally x.sys.k.live (fun p => (x.mpc p).place) a := by
  refine tally_pos ?_ hp
  by_contra hlive
  rw [show x.mpc p = .out from h.prot.gone p (.inl hlive)] at hp
  exact nomatch hp

theorem count_pos (h : MonInv m x) (hp : (x.mpc p).place = some (some j)) : 0 < x.count j := by
  have hcounted := h.counted hp
  rw [h.count]
  omega

theorem nextCount_pos (h : MonInv m x) (hp : (x.mpc p).place = some none) : 0 < x.nextCount := by
  have hcounted := h.counted hp
  rw [h.nextCount]
  omega

theorem called_mpc (x : MonSys numCv) (s : Sys) (v : MPc numCv) :
    (x.called s v).mpc = Function.update x.mpc x.current (if s.pc x.current = .run then .active else v) := by
  rw [MonSys.called]
  split
  · exact arrived_mpc x s v
  · rfl

theorem called_sys (x : MonSys numCv) (s : Sys) (v : MPc numCv) : (x.called s v).sys = s := by
  rw [MonSys.called]
  split
  · cases v <;> rfl
  · rfl

/-- Getting in, or into the queue at the door. The door is closed while somebody is in `cond_signal`. -/
theorem enter_spec (h : MonInv m x) (hs : MonStep m x .enter y) : x.mpc x.current = .out ∧
    (∀ j, y.sys.k.waitQueue (.sem (m.cv j)) = x.sys.k.waitQueue (.sem (m.cv j))) ∧
    (y.mpc = Function.update x.mpc x.current .active ∧ x.nextCount = 0 ∨
      y.mpc = Function.update x.mpc x.current .entering ∧ ∀ p, y.Holds m p ↔ x.Holds m p) := by
  cases hs with
  | enter hpc hs =>
    have hno : ¬ x.Holds m x.current := by
      rw [MonSys.Holds, Protocol.Holds, hpc]
      rintro (he | ⟨_, -, he, -⟩)
      · cases he
      · cases he
    refine ⟨hpc, ?_⟩
    rw [called_sys, called_mpc]
    have hblocks := h.blocks hs (v := .entering) rfl hno
    obtain ⟨-, ⟨hpos, rfl⟩ | ⟨hzero, rfl⟩⟩ := h.prot.sys.step_down hs
    · refine ⟨fun j => rfl, .inl ⟨?_, h.free ?_⟩⟩
      · rw [MonSys.current, Sys.move_pc, if_pos rfl]
      exact (h.token.take (a := x.current) (v := MPc.active) .other .run hpos rfl).2
    · refine ⟨fun j => Kern.setQueue_other _ _ fun he => m.mutex_ne_cv j (QueueId.sem.inj he).symm, .inr ⟨?_, ?_⟩⟩
      · rw [MonSys.current, Sys.move_pc, if_neg fun he => by cases he]
      · exact (hblocks hzero id (by rw [hpc]; rfl)).2

/-- `cond_signal` lets go the first one that waits. -/
theorem signal_spec (h : MonInv m x) (hs : MonStep m x (.signal j) y) : x.mpc x.current = .active ∧
    (y = x ∧ ¬ x.count j > 0 ∨ y.mpc = Function.update x.mpc x.current .signalled ∧ ∃ w rest,
      x.sys.k.waitQueue (.sem (m.cv j)) = w :: rest ∧ x.mpc w = .waiting j ∧ y.Holds m w ∧
      y.sys.k.waitQueue (.sem (m.cv j)) = rest ∧
      ∀ j', j' ≠ j → y.sys.k.waitQueue (.sem (m.cv j')) = x.sys.k.waitQueue (.sem (m.cv j'))) := by
  cases hs with
  | signal hpc hcount hs =>
    obtain ⟨-, w, rest, hlist, hw⟩ := h.signal hpc hcount hs
    obtain ⟨-, rfl⟩ := h.prot.sys.step_up hs
    refine ⟨hpc, .inr ⟨rfl, w, rest, hlist, ?_, hw, (Kern.upped_cons hlist).2, fun j' hj => ?_⟩⟩
    · obtain ⟨a, hwa, ha⟩ := h.prot.waiter (i := m.cv j) (.inr (.inr ⟨j, rfl⟩)) (hlist ▸ List.mem_cons_self)
      obtain rfl : w = a := hwa
      exact MPc.waiting_of_sem ha
    · exact (Kern.upped_other fun he => hj (m.cv_inj he)).2
  | signalNone hpc hrun hcount => exact ⟨hpc, .inl ⟨rfl, hcount⟩⟩

theorem exitSem_queue (x : MonSys numCv) (j : Fin numCv) :
    (x.sys.k.upped (x.exitSem m)).waitQueue (.sem (m.cv j)) = x.sys.k.waitQueue (.sem (m.cv j)) := by
  refine (Kern.upped_other ?_).2
  rw [MonSys.exitSem]
  split
  · exact (m.next_ne_cv j).symm
  · exact (m.mutex_ne_cv j).symm

theorem wait_spec (h : MonInv m x) (hs : MonStep m x (.wait j) y) : x.mpc x.current = .active ∧
    y.mpc = Function.update x.mpc x.current (.released j) ∧
    ∀ j, y.sys.k.waitQueue (.sem (m.cv j)) = x.sys.k.waitQueue (.sem (m.cv j)) := by
  cases hs with
  | wait hpc hs =>
    obtain ⟨-, rfl⟩ := h.prot.sys.step_up hs
    exact ⟨hpc, rfl, exitSem_queue x⟩

theorem leave_spec (h : MonInv m x) (hs : MonStep m x .leave y) : x.mpc x.current = .active ∧
    y.mpc = Function.update x.mpc x.current .out ∧
    (∀ j, y.sys.k.waitQueue (.sem (m.cv j)) = x.sys.k.waitQueue (.sem (m.cv j))) ∧
    (x.nextCount > 0 → ∃ w, x.mpc w = .signalling ∧ y.Holds m w) := by
  cases hs with
  | leave hpc hs =>
    have hnext := (h.leaves (v := .out) hpc hs rfl (fun he => nomatch he) (fun he => nomatch he)
      fun j => (Int.add_zero _).symm).2
    obtain ⟨-, rfl⟩ := h.prot.sys.step_up hs
    exact ⟨hpc, rfl, exitSem_queue x, hnext⟩

/-- `down` in `cond_signal` or `cond_wait` always has to wait. -/
theorem down_spec (h : MonInv m x) (hs : MonStep m x .down y) : (∀ p, y.Holds m p ↔ x.Holds m p) ∧
    (x.mpc x.current = .signalled ∧ y.mpc = Function.update x.mpc x.current .signalling ∧
      (∀ j, y.sys.k.waitQueue (.sem (m.cv j)) = x.sys.k.waitQueue (.sem (m.cv j))) ∨
    ∃ j, x.mpc x.current = .released j ∧ y.mpc = Function.update x.mpc x.current (.waiting j) ∧
      y.sys.k.waitQueue (.sem (m.cv j)) = x.sys.k.waitQueue (.sem (m.cv j)) ++ [x.current] ∧
      ∀ j', j' ≠ j → y.sys.k.waitQueue (.sem (m.cv j')) = x.sys.k.waitQueue (.sem (m.cv j'))) := by
  cases hs with
  | downNext hpc hs =>
    refine ⟨(h.mid_blocks hs rfl (by rw [hpc]; trivial) h.next id (by rw [hpc]; rfl)).2, .inl ⟨hpc, ?_⟩⟩
    rw [called_sys, called_mpc]
    obtain ⟨-, ⟨hpos, -⟩ | ⟨-, rfl⟩⟩ := h.prot.sys.step_down hs
    · exact absurd h.next hpos.ne'
    · refine ⟨?_, fun j => Kern.setQueue_other _ _ fun he => m.next_ne_cv j (QueueId.sem.inj he).symm⟩
      rw [MonSys.current, Sys.move_pc, if_neg fun he => nomatch he]
  | @downCv s j hpc hs =>
    refine ⟨(h.mid_blocks hs rfl (by rw [hpc]; trivial) (h.cv _) id (by rw [hpc]; rfl)).2, .inr ⟨j, hpc, ?_⟩⟩
    rw [called_sys, called_mpc]
    obtain ⟨-, ⟨hpos, -⟩ | ⟨-, rfl⟩⟩ := h.prot.sys.step_down hs
    · exact absurd (h.cv j) hpos.ne'
    · refine ⟨?_, Kern.setQueue_self _ _ _, fun j' hj => Kern.setQueue_other _ _ fun he => hj (m.cv_inj (QueueId.sem.inj he))⟩
      rw [MonSys.current, Sys.move_pc, if_neg fun he => nomatch he]

theorem back_spec (h : MonInv m x) (hs : MonStep m x .back y) : x.Holds m x.current ∧
    y.mpc = Function.update x.mpc x.current .active ∧
    (∃ i, (x.mpc x.current).sem m = some i ∧ x.current ∉ x.sys.k.waitQueue (.sem i)) ∧
    ∀ j, y.sys.k.waitQueue (.sem (m.cv j)) = x.sys.k.waitQueue (.sem (m.cv j)) := by
  cases hs with
  | @back s i hpc hs =>
    obtain ⟨hmem, hsys⟩ := h.prot.back (a := x.current) rfl hpc hs
    refine ⟨(h.back hpc hs).2, arrived_mpc x s _, ⟨i, hpc, hmem⟩, fun j => ?_⟩
    rw [show (x.arrived s (x.mpc x.current)).sys = s by cases x.mpc x.current <;> rfl, hsys]
    rfl

theorem other_spec (h : MonInv m x) (hs : MonStep m x (.other l) y) : y.mpc = x.mpc ∧ (∀ p, y.Holds m p ↔ x.Holds m p) ∧
    ∀ j, y.sys.k.waitQueue (.sem (m.cv j)) = x.sys.k.waitQueue (.sem (m.cv j)) := by
  cases hs with
  | other hs he hsem hcall hback hexit =>
    have hsame := (h.prot.other hs he (Monitor.other hsem hback hexit)).2
    exact ⟨rfl, Protocol.holds_of_same hsame.queue, fun j => hsame.queue _ (.inr (.inr ⟨j, rfl⟩))⟩

theorem init {semValue : Nat → Int} (h : MonInit m semValue x) : MonInv m x := by
  obtain ⟨hsem, hmutex, hnext, hcv, hstart, hmpc, hnc, hcount⟩ := h
  have hout : ∀ p, x.mpc p = .out := congrFun hmpc
  obtain ⟨hprot, hvalue⟩ := Protocol.Inv.init (P := m.protocol) hsem hstart hout
  have hzero : ∀ a, tally x.sys.k.live (fun p => (x.mpc p).place) a = 0 := by
    refine fun a => tally_eq_zero.mpr fun p _ hp => ?_
    rw [hout] at hp
    exact nomatch hp
  refine ⟨hprot, .init (by rw [hvalue, hmutex]) hout (fun he => nomatch he), fun p hp => ?_, ?_, fun j => ?_, fun _ => hnc, ?_,
    fun j => ?_⟩
  · rw [hout] at hp
    exact hp.elim
  · rw [hvalue, hnext]
  · rw [hvalue, hcv]
  · rw [hzero, hnc]
    rfl
  · rw [hzero, hcount]
    rfl

end MonInv

/-- The runs of the kernel with a monitor. -/
abbrev MonReaches (m : Monitor numCv) (semValue : Nat → Int) : MonSys numCv → Prop :=
  Reaches (MonInit m semValue) (MonStep m) fun _ _ => True

variable {semValue : Nat → Int}

theorem monReaches_inv (h : MonReaches m semValue x) : MonInv m x :=
  h.invariant (fun _ h0 => .init h0) fun _ _ _ hinv _ hs => hinv.step hs

/-- A run with a monitor is a run of the kernel. -/
theorem monReaches_sys (h : MonReaches m semValue x) : (∀ i, 0 ≤ semValue i) ∧
    Reaches (SysStart semValue) Step (fun _ _ => True) x.sys := by
  refine h.invariant (I := fun x => (∀ i, 0 ≤ semValue i) ∧ Reaches (SysStart semValue) Step (fun _ _ => True) x.sys) ?_ ?_
  · rintro x ⟨hsem, -, -, -, hstart, -⟩
    exact ⟨hsem, .start hstart⟩
  · rintro x l y ⟨hsem, hreach⟩ - hs
    refine ⟨hsem, ?_⟩
    have hcalled : ∀ {s : Sys} {l : Label} (v : MPc numCv), Step x.sys l s →
        Reaches (SysStart semValue) Step (fun _ _ => True) (x.called s v).sys := by
      intro s l v hs
      rw [MonSys.called]
      split
      · cases v <;> exact hreach.next trivial hs
      · exact hreach.next trivial hs
    cases hs with
    | enter hpc hs => exact hcalled _ hs
    | signal hpc hcount hs => exact hreach.next trivial hs
    | signalNone hpc hrun hcount => exact hreach
    | wait hpc hs => exact hreach.next trivial hs
    | leave hpc hs => exact hreach.next trivial hs
    | downNext hpc hs => exact hcalled _ hs
    | downCv hpc hs => exact hcalled _ hs
    | back hpc hs => cases x.mpc x.current <;> exact hreach.next trivial hs
    | other hs => exact hreach.next trivial hs

/-- **The monitor.** At most one process is active inside. `next_count` is the number of processes in the second half of
    `cond_signal`, and the `count` of a condition is the number of processes in `cond_wait` on it; they are in `down` of
    `next` or of the condition, or about to call it. A `cond_signal` on a condition with a positive `count` releases the
    process that has waited longest, and nobody becomes active before that one; with a `count` of 0 it does nothing. -/
theorem monitor_reached (h : MonReaches m semValue x) :
    (∀ p q, x.mpc p = .active → x.mpc q = .active → p = q) ∧
    x.nextCount = (x.sys.k.live.filter fun p => x.mpc p = .signalled ∨ x.mpc p = .signalling).card ∧
    (∀ j, x.count j = (x.sys.k.live.filter fun p => x.mpc p = .released j ∨ x.mpc p = .waiting j).card) ∧
    (∀ p i, (x.mpc p).sem m = some i → (x.sys.pc p).blocked = some (.down i)) ∧
    (∀ p, (x.mpc p = .signalled ∨ ∃ j, x.mpc p = .released j) → p = x.current ∧ x.sys.pc p = .run) ∧
    (∀ j y, MonStep m x (.signal j) y → 0 < x.count j →
      ∃ w rest, x.sys.k.waitQueue (.sem (m.cv j)) = w :: rest ∧ x.mpc w = .waiting j ∧
        queuedList (m.cv j) x.sys.events = releasedList (m.cv j) x.sys.events ++ w :: rest ∧ (∀ q, y.mpc q ≠ .active) ∧
        ∀ z, Reaches (· = y) (MonStep m) (fun z _ => ∀ q, z.mpc q ≠ .active) z → ∀ q, z.mpc q = .active → q = w) ∧
    ∀ j y, MonStep m x (.signal j) y → x.count j = 0 → y = x := by
  have hinv := monReaches_inv h
  obtain ⟨hsem, hsys⟩ := monReaches_sys h
  refine ⟨fun p q hp hq => (hinv.token.only (.inl hq)).2 p (.inl hp), ?_, fun j => ?_, fun p i hi => ?_, fun p hp => ?_,
    fun j y hs hpos => ?_, fun j y hs hzero => ?_⟩
  · rw [hinv.nextCount, tally]
    refine congrArg (fun s : Finset Nat => (s.card : Int)) (Finset.filter_congr fun p _ => ?_)
    cases x.mpc p <;> simp [MPc.place]
  · rw [hinv.count, tally]
    refine congrArg (fun s : Finset Nat => (s.card : Int)) (Finset.filter_congr fun p _ => ?_)
    cases x.mpc p <;> simp [MPc.place]
  · exact (hinv.prot.mem (a := p) hi).2
  · have hmid : (x.mpc p).Mid := by
      rcases hp with hp | ⟨j, hp⟩
      · rw [hp]
        trivial
      · rw [hp]
        trivial
    obtain ⟨rfl, hrun⟩ := hinv.mid p hmid
    exact ⟨rfl, hrun⟩
  · cases hs with
    | signal hpc hcount hs =>
      have hnext := hinv.step (.signal hpc hcount hs)
      obtain ⟨-, w, rest, hlist, hw⟩ := hinv.signal hpc hcount hs
      have hwait : x.mpc w = .waiting j := by
        obtain ⟨a, hwa, ha⟩ := hinv.prot.waiter (i := m.cv j) (.inr (.inr ⟨j, rfl⟩)) (hlist ▸ List.mem_cons_self)
        obtain rfl : w = a := hwa
        exact MPc.waiting_of_sem ha
      refine ⟨w, rest, hlist, hwait, hlist ▸ (semAccount_reached hsem hsys).order, fun q hq => ?_, fun z hz q hq => ?_⟩
      · replace hq : Function.update x.mpc x.current .signalled q = .active := hq
        by_cases hqc : q = x.current
        · rw [hqc, Function.update_self] at hq
          cases hq
        · rw [Function.update_of_ne hqc] at hq
          exact hqc ((hinv.token.only (.inl hpc)).2 q (.inl hq))
      · obtain ⟨hzinv, hzw⟩ := hz.invariant (I := fun z => MonInv m z ∧ z.Holds m w)
          (fun z hz => by obtain rfl := hz; exact ⟨hnext, hw⟩)
          fun z l z' hI hok hs => ⟨hI.1.step hs, hI.1.holds_step hs hok hI.2⟩
        exact (hzinv.token.only hzw).2 q (.inl hq)
    | signalNone hpc hrun hcount => exact absurd hpos hcount
  · cases hs with
    | signal hpc hcount hs => omega
    | signalNone hpc hrun hcount => rfl

/-- `initproc` is in the monitor, and nobody else. -/
theorem monitor_reached_enter : ∃ x : MonSys 1, x.mpc 1 = .active ∧ ∀ q, x.mpc q = .active → q = 1 := by
  let m : Monitor 1 := ⟨0, 1, fun _ => 2, by decide, by decide, by decide, fun _ _ _ => Subsingleton.elim _ _⟩
  let v : Nat → Int := fun i => if i = 0 then 1 else 0
  have hv : ∀ i, 0 ≤ v i := fun i => by show 0 ≤ (if i = 0 then 1 else 0 : Int); split <;> decide
  -- the kernel switches from `idleproc` to `initproc`, which calls `down`
  have hrun : ((Sys.boot v 1).bind fun s0 => (s0.next (.call .yield)).bind fun s1 => (s1.next .switch).bind fun s2 =>
      (s2.next (.call (.down 0))).map fun s3 => (s1.events, s2.events, s2.k.current, s3.pc s2.k.current)) =
      some ([.other], [.other, .other], 1, .run) := by decide +kernel
  obtain ⟨s0, hs0, hrun⟩ := Option.bind_eq_some_iff.mp hrun
  obtain ⟨s1, hs1, hrun⟩ := Option.bind_eq_some_iff.mp hrun
  obtain ⟨s2, hs2, hrun⟩ := Option.bind_eq_some_iff.mp hrun
  obtain ⟨s3, hs3, hfacts⟩ := Option.map_eq_some_iff.mp hrun
  obtain ⟨he1, he2, hcur, hpc⟩ := by simpa only [Prod.mk.injEq] using hfacts
  have hstart := sysStart_boot (by decide) hs0
  have he0 : s0.events = [] := by
    obtain ⟨-, -, -, -, he⟩ := hstart
    exact he
  let x0 : MonSys 1 := ⟨s0, fun _ => .out, 0, fun _ => 0⟩
  have h0 : MonReaches m v x0 := .start ⟨hv, rfl, rfl, fun _ => rfl, hstart, rfl, rfl, rfl⟩
  have h1 : MonReaches m v { x0 with sys := s1 } := h0.next trivial
    (.other (Sys.step_of_next hs1) (he1.trans (congrArg _ he0.symm)) (fun _ _ => id) (fun _ _ => .inl rfl) (fun _ => rfl)
      fun _ _ => rfl)
  have h2 : MonReaches m v { x0 with sys := s2 } := h1.next trivial
    (.other (Sys.step_of_next hs2) (he2.trans (congrArg _ he1.symm)) (fun _ _ => id) (fun _ _ => .inl rfl) (fun _ => rfl)
      fun _ _ => rfl)
  have h3 := h2.next trivial (.enter rfl (Sys.step_of_next hs3))
  have hactive : (({ x0 with sys := s2 } : MonSys 1).called s3 .entering).mpc 1 = .active := by
    have hpc' : s3.pc ({ x0 with sys := s2 } : MonSys 1).current = .run := hpc
    have hcur' : ({ x0 with sys := s2 } : MonSys 1).current = 1 := hcur
    rw [MonSys.called, if_pos hpc', MonInv.arrived_mpc, hcur']
    exact Function.update_self _ _ _
  exact ⟨_, hactive, fun q hq => (monitor_reached h3).1 q 1 hq hactive⟩

end Ucore
