import Ucore.Fs.Correctness.FdTable

/-!
# `Fs.Correctness.FdRuns` — the table over whole runs

How many processes are at an entry, and in which role, goes with its status (`Fits`). A move of one process keeps this for the entry
it is made on (`Move.fits`) and touches no other, so it holds over every run (`FdInv.reaches`), whatever the order in which the
processes run and however many of them wait at one entry.
-/

namespace Ucore.FdTable

open Vfs

variable {f f' : FdFile} {es log : List Event} {c c' : Call} {fd fd' : Nat} {n n' : Role → Nat}

/-- The status of an entry at which so many calls are, in each role -/
inductive Fits (f : FdFile) (n : Role → Nat) : Prop where
  | none (hs : f.status = .none) (hc : f.openCount = 0) (hh : n .holds = 0) (ho : n .opens = 0) (hr : n .frees = 0)
  | init (hs : f.status = .init) (hc : f.openCount = 0) (hh : n .holds = 0) (ho : n .opens = 1) (hr : n .frees = 0)
  | opened (hs : f.status = .opened) (hc : f.openCount = n .holds + 1) (hn : f.node ≠ .none) (ho : n .opens = 0) (hr : n .frees = 0)
  | closed (hs : f.status = .closed) (hc : f.openCount = n .holds) (hn : f.node ≠ .none) (ho : n .opens = 0)
      (hh : 0 < n .holds) (hr : n .frees = 0)
  | released (hs : f.status = .closed) (hc : f.openCount = 0) (hn : f.node ≠ .none) (hh : n .holds = 0) (ho : n .opens = 0)
      (hr : n .frees = 1)

/-- The stage of an entry -/
inductive At (f : FdFile) : Stage → Prop where
  | free (hs : f.status = .none) : At f .free
  | init (hs : f.status = .init) : At f .init
  | opened {m} (hs : f.status = .opened) (hn : f.node = some m) : At f (.opened m)
  | closed {m} (hs : f.status = .closed) (hn : f.node = some m) (hc : 0 < f.openCount) : At f (.closed m)
  | released {m} (hs : f.status = .closed) (hn : f.node = some m) (hc : f.openCount = 0) : At f (.released m)

namespace Fits

theorem of_none (hf : Fits f n) (hs : f.status = .none) : f.openCount = 0 ∧ n .holds = 0 ∧ n .opens = 0 ∧ n .frees = 0 := by
  cases hf with
  | none _ hc hh ho hr => exact ⟨hc, hh, ho, hr⟩
  | init hs' | opened hs' | closed hs' | released hs' => exact nomatch hs.symm.trans hs'

theorem of_init (hf : Fits f n) (hs : f.status = .init) : f.openCount = 0 ∧ n .holds = 0 ∧ n .opens = 1 ∧ n .frees = 0 := by
  cases hf with
  | init _ hc hh ho hr => exact ⟨hc, hh, ho, hr⟩
  | none hs' | opened hs' | closed hs' | released hs' => exact nomatch hs.symm.trans hs'

theorem of_opened (hf : Fits f n) (hs : f.status = .opened) :
    f.openCount = n .holds + 1 ∧ f.node ≠ .none ∧ n .opens = 0 ∧ n .frees = 0 := by
  cases hf with
  | opened _ hc hn ho hr => exact ⟨hc, hn, ho, hr⟩
  | none hs' | init hs' | closed hs' | released hs' => exact nomatch hs.symm.trans hs'

theorem of_closed (hf : Fits f n) (hs : f.status = .closed) : f.openCount = n .holds ∧ f.node ≠ .none ∧ n .opens = 0 ∧
    (0 < n .holds ∧ n .frees = 0 ∨ n .holds = 0 ∧ n .frees = 1) := by
  cases hf with
  | closed _ hc hn ho hh hr => exact ⟨hc, hn, ho, .inl ⟨hh, hr⟩⟩
  | released _ hc hn hh ho hr => exact ⟨by omega, hn, ho, .inr ⟨hh, hr⟩⟩
  | none hs' | init hs' | opened hs' => exact nomatch hs.symm.trans hs'

theorem of_holds (hf : Fits f n) (h : 0 < n .holds) : f.status = .opened ∨ f.status = .closed := by
  cases hf with
  | opened hs => exact .inl hs
  | closed hs => exact .inr hs
  | none _ _ hh | init _ _ hh | released _ _ _ hh => omega

theorem of_opens (hf : Fits f n) (h : 0 < n .opens) : f.status = .init := by
  cases hf with
  | init hs => exact hs
  | none _ _ _ ho | opened _ _ _ ho | closed _ _ _ ho | released _ _ _ _ ho => omega

theorem of_frees (hf : Fits f n) (h : 0 < n .frees) : f.status = .closed := by
  cases hf with
  | released hs => exact hs
  | none _ _ _ _ hr | init _ _ _ _ hr | opened _ _ _ _ hr | closed _ _ _ _ _ hr => omega

end Fits

/-! ## Moves -/

/-- 1 for a call in the role -/
def Call.unit (c : Call) (role : Role) (fd : Nat) : Nat := if c.role = some (role, fd) then 1 else 0

/-- The numbers of calls at `fd`, with one process in `c`, and when that has gone on to `c'`. -/
structure Counted (fd : Nat) (c c' : Call) (n n' : Role → Nat) : Prop where
  self : ∀ role, c.unit role fd ≤ n role
  change : ∀ role, n' role + c.unit role fd = n role + c'.unit role fd

theorem Counted.all (h : Counted fd c c' n n') (x x' : Option (Role × Nat)) (hc : c.role = x) (hc' : c'.role = x') :
    (n' .holds + (if x = some (.holds, fd) then 1 else 0) = n .holds + if x' = some (.holds, fd) then 1 else 0) ∧
    (n' .opens + (if x = some (.opens, fd) then 1 else 0) = n .opens + if x' = some (.opens, fd) then 1 else 0) ∧
    (n' .frees + (if x = some (.frees, fd) then 1 else 0) = n .frees + if x' = some (.frees, fd) then 1 else 0) := by
  subst hc hc'
  exact ⟨h.change .holds, h.change .opens, h.change .frees⟩

theorem Counted.pos {role : Role} (h : Counted fd c c' n n') (hc : c.role = some (role, fd)) : 0 < n role := by
  have := h.self role
  rwa [Call.unit, if_pos hc] at this

/-- **A move keeps the status and the calls of its entry in step.** -/
theorem Move.fits (hm : Move fd f c f' es c') (hf : Fits f n) (hk : Counted fd c c' n n') : Fits f' n' := by
  cases hm with
  | alloc hc hs =>
    have hn := hk.all none (some (.opens, fd)) (Call.role_of_out hc) rfl
    obtain ⟨hcount, hh, ho, hr⟩ := hf.of_none hs
    simp at hn
    exact .init rfl hcount (by omega) (by omega) (by omega)
  | failed hc hs =>
    have hn := hk.all (some (.opens, fd)) none hc rfl
    obtain ⟨hcount, hh, ho, hr⟩ := hf.of_init hs
    simp at hn
    exact .none rfl hcount (by omega) (by omega) (by omega)
  | stat hc hs | drop hc hs =>
    have hn := hk.all (some (.opens, fd)) (some (.opens, fd)) hc rfl
    obtain ⟨hcount, hh, ho, hr⟩ := hf.of_init hs
    simp at hn
    exact .init hs hcount (by omega) (by omega) (by omega)
  | opened hc hs =>
    have hn := hk.all (some (.opens, fd)) none hc rfl
    obtain ⟨hcount, hh, ho, hr⟩ := hf.of_init hs
    simp at hn
    exact .opened rfl (by dsimp only; omega) (Option.some_ne_none _) (by omega) (by omega)
  | dup hc hs =>
    have hn := hk.all none none (Call.role_of_out hc) rfl
    obtain ⟨hcount, hh, ho, hr⟩ := hf.of_none hs
    simp at hn
    exact .opened rfl (by dsimp only; omega) (Option.some_ne_none _) (by omega) (by omega)
  | close hc hs hmore =>
    have hn := hk.all none none (Call.role_of_out hc) rfl
    obtain ⟨hcount, hnode, ho, hr⟩ := hf.of_opened hs
    simp at hn
    exact .closed rfl (by dsimp only; omega) hnode (by omega) (by omega) (by omega)
  | closeLast hc hs hlast =>
    have hn := hk.all none (some (.frees, fd)) (Call.role_of_out hc) rfl
    obtain ⟨hcount, hnode, ho, hr⟩ := hf.of_opened hs
    simp at hn
    exact .released rfl hlast hnode (by omega) (by omega) (by omega)
  | acquire hc hs hc' =>
    have hn := hk.all none (some (.holds, fd)) (Call.role_of_out hc) hc'
    obtain ⟨hcount, hnode, ho, hr⟩ := hf.of_opened hs
    simp at hn
    exact .opened hs (by dsimp only; omega) hnode (by omega) (by omega)
  | measured =>
    have hn := hk.all (some (.holds, fd)) (some (.holds, fd)) rfl rfl
    have hpos : 0 < n .holds := hk.pos rfl
    simp at hn
    rcases hf.of_holds hpos with hs | hs
    · obtain ⟨hcount, hnode, ho, hr⟩ := hf.of_opened hs
      exact .opened hs (by omega) hnode (by omega) (by omega)
    · obtain ⟨hcount, hnode, ho, hr⟩ := hf.of_closed hs
      exact .closed hs (by omega) hnode (by omega) (by omega) (by omega)
  | release hc hmore =>
    have hn := hk.all (some (.holds, fd)) none hc rfl
    have hpos := hk.pos hc
    simp at hn
    rcases hf.of_holds hpos with hs | hs
    · obtain ⟨hcount, hnode, ho, hr⟩ := hf.of_opened hs
      exact .opened hs (by dsimp only; omega) hnode (by omega) (by omega)
    · obtain ⟨hcount, hnode, ho, hr⟩ := hf.of_closed hs
      exact .closed hs (by dsimp only; omega) hnode (by omega) (by omega) (by omega)
  | releaseLast hc hs hlast =>
    have hn := hk.all (some (.holds, fd)) (some (.frees, fd)) hc rfl
    have hpos := hk.pos hc
    obtain ⟨hcount, hnode, ho, hr⟩ := hf.of_closed hs
    simp at hn
    exact .released hs hlast hnode (by omega) (by omega) (by omega)
  | freed hs =>
    have hn := hk.all (some (.frees, fd)) none rfl rfl
    obtain ⟨hcount, hnode, ho, hr⟩ := hf.of_closed hs
    simp at hn
    exact .none rfl (by dsimp only; omega) (by omega) (by omega) (by omega)

namespace At

variable {st : Stage}

theorem of_none (h : At f st) (hs : f.status = .none) : st = .free := by
  cases h with
  | free => rfl
  | init hs' | opened hs' | closed hs' | released hs' => exact nomatch hs.symm.trans hs'

theorem of_init (h : At f st) (hs : f.status = .init) : st = .init := by
  cases h with
  | init => rfl
  | free hs' | opened hs' | closed hs' | released hs' => exact nomatch hs.symm.trans hs'

theorem of_opened (h : At f st) (hs : f.status = .opened) : ∃ m, f.node = some m ∧ st = .opened m := by
  cases h with
  | opened _ hn => exact ⟨_, hn, rfl⟩
  | free hs' | init hs' | closed hs' | released hs' => exact nomatch hs.symm.trans hs'

theorem of_closed (h : At f st) (hs : f.status = .closed) : ∃ m, f.node = some m ∧
    (0 < f.openCount ∧ st = .closed m ∨ f.openCount = 0 ∧ st = .released m) := by
  cases h with
  | closed _ hn hc => exact ⟨_, hn, .inl ⟨hc, rfl⟩⟩
  | released _ hn hc => exact ⟨_, hn, .inr ⟨hc, rfl⟩⟩
  | free hs' | init hs' | opened hs' => exact nomatch hs.symm.trans hs'

end At

/-- **A move goes on with the life of its entry.** -/
theorem Move.life {st : Stage} (hm : Move fd f c f' es c') (hf : Fits f n) (hk : Counted fd c c' n n') (hl : Life fd log st)
    (hat : At f st) : ∃ st', Life fd (es ++ log) st' ∧ At f' st' := by
  cases hm with
  | alloc hc hs =>
    obtain rfl := hat.of_none hs
    exact ⟨_, .alloc hl, .init rfl⟩
  | failed hc hs =>
    obtain rfl := hat.of_init hs
    exact ⟨_, .failed hl, .free rfl⟩
  | stat hc hs | drop hc hs =>
    obtain rfl := hat.of_init hs
    exact ⟨_, hl, .init hs⟩
  | opened hc hs =>
    obtain rfl := hat.of_init hs
    exact ⟨_, .opening hl, .opened rfl rfl⟩
  | dup hc hs =>
    obtain rfl := hat.of_none hs
    exact ⟨_, .opening (.alloc hl), .opened rfl rfl⟩
  | close hc hs hmore =>
    obtain ⟨m, hn, rfl⟩ := hat.of_opened hs
    obtain ⟨hcount, -⟩ := hf.of_opened hs
    have hlife : Life fd (.status fd .opened .closed f.node :: log) (.closed m) := hn ▸ .close hl
    exact ⟨_, hlife, .closed rfl hn (by dsimp only; omega)⟩
  | closeLast hc hs hlast =>
    obtain ⟨m, hn, rfl⟩ := hat.of_opened hs
    have hlife : Life fd (.vfsClose fd f.node :: .status fd .opened .closed f.node :: log) (.released m) := hn ▸ .vfsClose (.close hl)
    exact ⟨_, hlife, .released rfl hn hlast⟩
  | acquire hc hs hc' =>
    obtain ⟨m, hn, rfl⟩ := hat.of_opened hs
    exact ⟨_, hl, .opened hs hn⟩
  | measured => exact ⟨st, hl, hat⟩
  | release hc hmore =>
    rcases hf.of_holds (hk.pos hc) with hs | hs
    · obtain ⟨m, hn, rfl⟩ := hat.of_opened hs
      exact ⟨_, hl, .opened hs hn⟩
    · obtain ⟨m, hn, hst⟩ := hat.of_closed hs
      obtain ⟨hcount, -, -, hrest⟩ := hf.of_closed hs
      have hpos := hk.pos hc
      obtain ⟨-, rfl⟩ := hst.resolve_right (by omega)
      exact ⟨_, hl, .closed hs hn (by dsimp only; omega)⟩
  | releaseLast hc hs hlast =>
    obtain ⟨m, hn, hst⟩ := hat.of_closed hs
    obtain ⟨-, rfl⟩ := hst.resolve_right (by omega)
    have hlife : Life fd (.vfsClose fd f.node :: log) (.released m) := hn ▸ .vfsClose hl
    exact ⟨_, hlife, .released hs hn hlast⟩
  | freed hs =>
    obtain ⟨m, hn, hst⟩ := hat.of_closed hs
    obtain ⟨hcount, -, -, hrest⟩ := hf.of_closed hs
    have hpos : 0 < n .frees := hk.pos rfl
    obtain ⟨-, rfl⟩ := hst.resolve_left (by omega)
    exact ⟨_, .free hl, .free rfl⟩

theorem Move.events_fd (hm : Move fd f c f' es c') : ∀ e ∈ es, e.fd = fd := by
  cases hm <;> simp [Event.fd]

/-- The call is on no other entry. -/
theorem Move.roles (hm : Move fd f c f' es c') (hne : fd' ≠ fd) (role : Role) : c.unit role fd' = 0 ∧ c'.unit role fd' = 0 := by
  have hsome : ∀ {x : Call} {role' : Role}, x.role = some (role', fd) → x.unit role fd' = 0 := by
    intro x role' hx
    rw [Call.unit, hx, if_neg]
    exact fun h => hne (Prod.mk.inj (Option.some.inj h)).2.symm
  have hout : ∀ {x : Call}, x.Out → x.unit role fd' = 0 := by
    intro x hx
    rw [Call.unit, Call.role_of_out hx]
    exact if_neg nofun
  cases hm with
  | alloc hc | closeLast hc => exact ⟨hout hc, hsome rfl⟩
  | failed hc | opened hc | release hc => exact ⟨hsome hc, hout trivial⟩
  | stat hc | drop hc | releaseLast hc => exact ⟨hsome hc, hsome rfl⟩
  | dup hc | close hc => exact ⟨hout hc, hout trivial⟩
  | acquire hc _ hc' => exact ⟨hout hc, hsome hc'⟩
  | measured => exact ⟨hsome rfl, hsome rfl⟩
  | freed => exact ⟨hsome rfl, hout trivial⟩

/-! ## Runs -/

section Runs

variable {ι : Type} [Fintype ι] {s s' : FdSys ι} {p q : ι} {a : Act}

/-- The number of calls at `fd` in the role -/
def calls (s : FdSys ι) (fd : Nat) (role : Role) : Nat := tally Finset.univ (fun p => (s.call p).role) (role, fd)

structure FdInv (s : FdSys ι) : Prop where
  filesCount : 0 < s.table.filesCount
  fits : ∀ fd, Fits (s.table.file fd) (calls s fd)
  life : ∀ fd, ∃ st, Life fd s.table.log st ∧ At (s.table.file fd) st

theorem calls_pos {role : Role} (h : (s.call p).role = some (role, fd)) : 0 < calls s fd role :=
  tally_pos (Finset.mem_univ p) h

theorem FdInv.ready (h : FdInv s) (p : ι) : Ready s.table (s.call p) where
  filesCount := h.filesCount
  free fd hs := ((h.fits fd).of_none hs).1
  opened fd hs := by
    obtain ⟨hcount, hn, -⟩ := (h.fits fd).of_opened hs
    exact ⟨by omega, hn⟩
  holds fd hp := by
    have hpos := calls_pos hp
    rcases (h.fits fd).of_holds hpos with hs | hs
    · obtain ⟨hcount, hn, -⟩ := (h.fits fd).of_opened hs
      exact ⟨.inl ⟨hs, by omega⟩, by omega, hn⟩
    · obtain ⟨hcount, hn, -⟩ := (h.fits fd).of_closed hs
      exact ⟨.inr hs, by omega, hn⟩
  opens fd hp := by
    have hs := (h.fits fd).of_opens (calls_pos hp)
    exact ⟨hs, ((h.fits fd).of_init hs).1⟩
  frees fd hp := (h.fits fd).of_frees (calls_pos hp)

theorem FdInv.init (h : s.Init) : FdInv s where
  filesCount := h.filesCount
  fits fd := by
    have hzero : ∀ role, calls s fd role = 0 := fun role => tally_eq_zero.mpr fun p _ => by rw [h.idle p]; exact nofun
    exact .none (h.status fd) (h.openCount fd) (hzero _) (hzero _) (hzero _)
  life fd := ⟨.free, h.log ▸ .start, .free (h.status fd)⟩

variable [DecidableEq ι]

/-- A step is an effect on the table and the call of one process. -/
theorem step_effect (h : FdInv s) (hs : s.step p a = some s') :
    ∃ t c, Effect s.table (s.call p) t c ∧ s' = ⟨t, Function.update s.call p c⟩ := by
  unfold FdSys.step at hs
  split at hs
  · exact nomatch hs
  · next m hm =>
    obtain ⟨c, t, hrun, he⟩ := code_run (h.ready p) hm
    rw [hrun] at hs
    exact ⟨t, c, he, (Option.some.inj hs).symm⟩

theorem counted (s : FdSys ι) (p : ι) (t : Table) (c : Call) (fd : Nat) :
    Counted fd (s.call p) c (calls s fd) (calls ⟨t, Function.update s.call p c⟩ fd) where
  self role := by
    unfold Call.unit
    split
    · next h => exact calls_pos h
    · exact Nat.zero_le _
  change role := by
    have hcall : ∀ q ∈ Finset.univ, (Function.update s.call p c q).role = if q = p then c.role else (s.call q).role := by
      intro q _
      by_cases hq : q = p
      · rw [hq, if_pos rfl, Function.update_self]
      · rw [if_neg hq, Function.update_of_ne hq]
    exact tally_update (Finset.mem_univ p) hcall (role, fd)

theorem FdInv.step (h : FdInv s) (hs : s.step p a = some s') : FdInv s' := by
  obtain ⟨t, c, he, rfl⟩ := step_effect h hs
  have hcount := counted s p t c
  cases he with
  | @fails op e hc =>
    refine ⟨h.filesCount, fun fd => ?_, h.life⟩
    have hsame : calls ⟨s.table, Function.update s.call p (.done op (.error e))⟩ fd = calls s fd := by
      funext role
      have := (hcount fd).change role
      rwa [Call.unit, Call.unit, Call.role_of_out hc, show (Call.done op (.error e)).role = none from rfl] at this
    rw [hsame]
    exact h.fits fd
  | @move fd f es _ hm =>
    have hother : ∀ {fd'}, fd' ≠ fd → (s.table.put fd f es).file fd' = s.table.file fd' := fun hne => Function.update_of_ne hne _ _
    refine ⟨h.filesCount, fun fd' => ?_, fun fd' => ?_⟩
    · by_cases hfd : fd' = fd
      · subst hfd
        rw [put_file]
        exact hm.fits (h.fits fd') (hcount fd')
      · have hsame : calls ⟨s.table.put fd f es, Function.update s.call p c⟩ fd' = calls s fd' := by
          funext role
          have := (hcount fd').change role
          rwa [(hm.roles hfd role).1, (hm.roles hfd role).2] at this
        rw [hsame, hother hfd]
        exact h.fits fd'
    · obtain ⟨st, hl, hat⟩ := h.life fd'
      by_cases hfd : fd' = fd
      · subst hfd
        rw [put_file]
        exact hm.life (h.fits fd') (hcount fd') hl hat
      · rw [hother hfd]
        exact ⟨st, hl.others fun e he' => hm.events_fd e he' ▸ Ne.symm hfd, hat⟩

/-- The states of the processes and their table, over any run -/
def FdReached (s : FdSys ι) : Prop := Reaches FdSys.Init (fun s (i : ι × Act) s' => s.step i.1 i.2 = some s') (fun _ _ => True) s

omit [Fintype ι] in
theorem FdReached.step (h : FdReached s) (hs : s.step p a = some s') : FdReached s' := Reaches.next (i := (p, a)) h trivial hs

theorem FdInv.reaches (h : FdReached s) : FdInv s :=
  Reaches.invariant (I := FdInv) (fun _ => .init) (fun _ _ _ h _ hs => h.step hs) h

end Runs

end Ucore.FdTable
