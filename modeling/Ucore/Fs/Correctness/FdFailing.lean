import Ucore.Fs.Correctness.FdRuns

/-!
# `Fs.Correctness.FdFailing` — what a failing call leaves behind

`Since p s w`: in `s` process `p` is in a call, or behind it, and `w` is the table from before the call, with what the others have
done to it since. A call that has failed is to be judged by the difference of the two tables (`Kept`). While an entry is being
opened or freed no other process moves it (`FdInv.alone`).
-/

namespace Ucore.FdTable

open Vfs

variable {ι : Type} [Fintype ι] [DecidableEq ι] {s s' : FdSys ι} {p q : ι} {a : Act} {w : Nat → FdFile} {f f' v : FdFile}
  {c c' : Call} {fd : Nat} {es : List Event} {role : Role}

deriving instance DecidableEq for FdFile

/-- The others' step from `s` to `s'`, done to `w` -/
def carry (w : Nat → FdFile) (s s' : FdSys ι) : Nat → FdFile := fun fd =>
  if s'.table.file fd = s.table.file fd then w fd else s'.table.file fd

inductive Since (p : ι) : FdSys ι → (Nat → FdFile) → Prop where
  | begin {x y : FdSys ι} {b : Act} (h : FdReached x) (hout : (x.call p).Out) (hs : x.step p b = some y) : Since p y x.table.file
  | own {x y : FdSys ι} {b : Act} {w} (h : Since p x w) (hin : ¬ (x.call p).Out) (hs : x.step p b = some y) : Since p y w
  | other {x y : FdSys ι} {q b w} (h : Since p x w) (hq : q ≠ p) (hs : x.step q b = some y) : Since p y (carry w x y)

omit [Fintype ι] in
theorem Since.reached (h : Since p s w) : FdReached s := by
  induction h with
  | begin h _ hs => exact h.step hs
  | own _ _ hs ih => exact ih.step hs
  | other _ _ hs ih => exact ih.step hs

/-! ## What a failing call may change -/

/-- An open has used an entry that is free, and free again. -/
def Restored (v f : FdFile) : Prop := f.status = v.status ∧ (v.status ≠ .none → f.node = v.node ∧ f.pos = v.pos)

/-- A seek that was the last to hold an entry has freed it, if the entry was closed in the meantime. -/
def Sought (v f : FdFile) : Prop := f.node = v.node ∧ f.pos = v.pos ∧ (f.status = v.status ∨ v.status = .closed ∧ f.status = .none)

/-- What a call that has failed leaves of an entry that would be `v` without it -/
def Unharmed (v f : FdFile) : Op → Prop
  | .open => Restored v f
  | .dup  => f = v
  | .seek => Sought v f
  | _     => True

/-- The same at any time in the call, of the entry `fd` -/
def Kept (fd : Nat) (v f : FdFile) : Call → Prop
  | .idle                    => True
  | .done op (.error _)      => Unharmed v f op
  | .done _ (.ok _)          => True
  | .opening x _ _ _         => if fd = x then v.status = .none else f = v
  | .stating x _ _ _         => if fd = x then v.status = .none else f = v
  | .dropping x _ _          => if fd = x then v.status = .none else f = v
  | .transferring _ _        => True
  | .sizing x _              => if fd = x then f.node = v.node ∧ f.pos = v.pos ∧ f.status = v.status else f = v
  | .seeking x _             => if fd = x then f.node = v.node ∧ f.pos = v.pos ∧ f.status = v.status else f = v
  | .freeing x op (.error _) => op ≠ .open ∧ op ≠ .dup ∧
    (op = .seek → if fd = x then f.node = v.node ∧ f.pos = v.pos ∧ v.status = .closed else f = v)
  | .freeing _ _ (.ok _)     => True

theorem unharmed_refl (f : FdFile) (op : Op) : Unharmed f f op := by
  cases op with
  | «open» => exact ⟨rfl, fun _ => ⟨rfl, rfl⟩⟩
  | dup => rfl
  | seek => exact ⟨rfl, rfl, .inl rfl⟩
  | close | read | write => trivial

theorem not_out {y : Role × Nat} (hc : c.role = some y) : ¬ c.Out := fun h => nomatch hc.symm.trans (Call.role_of_out h)

theorem kept_opens {x : Nat} (hc : c.role = some (.opens, fd)) : Kept x v f c ↔ if x = fd then v.status = .none else f = v := by
  cases c with
  | opening | stating | dropping =>
    obtain ⟨-, rfl⟩ := Prod.mk.inj (Option.some.inj hc)
    exact Iff.rfl
  | idle | done | transferring | sizing | seeking | freeing => simp [Call.role] at hc

theorem kept_seek {x : Nat} (hc : c.role = some (.holds, fd)) (hop : c.op = some .seek) :
    Kept x v f c ↔ if x = fd then f.node = v.node ∧ f.pos = v.pos ∧ f.status = v.status else f = v := by
  cases c with
  | sizing | seeking =>
    obtain ⟨-, rfl⟩ := Prod.mk.inj (Option.some.inj hc)
    exact Iff.rfl
  | transferring write => cases write <;> exact nomatch hop
  | idle | done | opening | stating | dropping | freeing => simp [Call.role] at hc

theorem kept_acquired {x : Nat} (hc : c.role = some (.holds, fd))
    (hon : x = fd → f.node = v.node ∧ f.pos = v.pos ∧ f.status = v.status) (hoff : x ≠ fd → f = v) : Kept x v f c := by
  have hboth : if x = fd then f.node = v.node ∧ f.pos = v.pos ∧ f.status = v.status else f = v := by
    split
    · next heq => exact hon heq
    · next hne => exact hoff hne
  cases c with
  | transferring => trivial
  | sizing | seeking =>
    obtain ⟨-, rfl⟩ := Prod.mk.inj (Option.some.inj hc)
    exact hboth
  | idle | done | opening | stating | dropping | freeing => simp [Call.role] at hc

/-- The operation of a call that holds an entry is neither an open nor a dup. -/
theorem op_of_holds {op : Op} (hc : c.role = some (.holds, fd)) (hop : c.op = some op) : op ≠ .open ∧ op ≠ .dup := by
  cases c with
  | transferring write =>
    obtain rfl := Option.some.inj hop
    cases write <;> exact ⟨nofun, nofun⟩
  | sizing | seeking =>
    obtain rfl := Option.some.inj hop
    exact ⟨nofun, nofun⟩
  | idle | done | opening | stating | dropping | freeing => simp [Call.role] at hc

theorem unharmed_of_holds {op : Op} (hop : op ≠ .open ∧ op ≠ .dup) (h : op = .seek → Sought v f) : Unharmed v f op := by
  cases op with
  | «open» => exact absurd rfl hop.1
  | dup => exact absurd rfl hop.2
  | seek => exact h rfl
  | close | read | write => trivial

/-- A step keeps what a call promises of the entries that it is not on. -/
theorem kept_other {x : Nat} (hm : Move fd f c f' es c') (hne : x ≠ fd) {g : FdFile} (h : c.Out → g = v)
    (hk : ¬ c.Out → Kept x v g c) : Kept x v g c' := by
  cases hm with
  | alloc hc => exact (if_neg hne).mpr (h hc)
  | failed hc | stat hc | drop hc =>
    have hsame : g = v := (if_neg hne).mp ((kept_opens hc).mp (hk (not_out hc)))
    first
    | exact hsame ▸ unharmed_refl g .open
    | exact (if_neg hne).mpr hsame
  | opened | dup | close | closeLast => trivial
  | acquire hc hs hc' => exact kept_acquired hc' (fun heq => absurd heq hne) fun _ => h hc
  | measured => exact hk (not_out rfl)
  | @release _ op ret _ hc _ _ hop =>
    cases ret with
    | ok r => trivial
    | error e =>
      refine unharmed_of_holds (op_of_holds hc hop) fun hseek => ?_
      have hsame : g = v := (if_neg hne).mp ((kept_seek hc (hseek ▸ hop)).mp (hk (not_out hc)))
      exact hsame ▸ unharmed_refl g .seek
  | @releaseLast _ op ret _ hc _ _ _ hop =>
    cases ret with
    | ok r => trivial
    | error e =>
      obtain ⟨hopen, hdup⟩ := op_of_holds hc hop
      exact ⟨hopen, hdup, fun hseek =>
        (if_neg hne).mpr ((if_neg hne).mp ((kept_seek hc (hseek ▸ hop)).mp (hk (not_out hc))))⟩
  | @freed op ret =>
    cases ret with
    | ok r => trivial
    | error e =>
      obtain ⟨hopen, hdup, hrest⟩ := hk (not_out rfl)
      refine unharmed_of_holds ⟨hopen, hdup⟩ fun hseek => ?_
      have hsame : g = v := (if_neg hne).mp (hrest hseek)
      exact hsame ▸ unharmed_refl g .seek

/-- and of the entry that it is on. -/
theorem kept_self (hm : Move fd f c f' es c') (h : c.Out → f = v) (hk : ¬ c.Out → Kept fd v f c) : Kept fd v f' c' := by
  cases hm with
  | alloc hc hs => exact (if_pos rfl).mpr (h hc ▸ hs)
  | failed hc =>
    have hfree : v.status = .none := (if_pos rfl).mp ((kept_opens hc).mp (hk (not_out hc)))
    exact ⟨hfree.symm, fun hne => absurd hfree hne⟩
  | stat hc | drop hc => exact (if_pos rfl).mpr ((if_pos rfl).mp ((kept_opens hc).mp (hk (not_out hc))))
  | opened | dup | close | closeLast => trivial
  | acquire hc hs hc' => 
    refine kept_acquired hc' (fun _ => ?_) fun hne => absurd rfl hne
    rw [← h hc]
    exact ⟨rfl, rfl, rfl⟩
  | measured => exact hk (not_out rfl)
  | @release _ op ret _ hc _ hpos hop =>
    cases ret with
    | ok r => trivial
    | error e =>
      refine unharmed_of_holds (op_of_holds hc hop) fun hseek => ?_
      obtain ⟨hnode, hsame, hstatus⟩ := (if_pos rfl).mp ((kept_seek hc (hseek ▸ hop)).mp (hk (not_out hc)))
      exact ⟨hnode, (hpos ⟨e, rfl⟩ hseek).trans hsame, .inl hstatus⟩
  | @releaseLast _ op ret _ hc hs _ hpos hop =>
    cases ret with
    | ok r => trivial
    | error e =>
      obtain ⟨hopen, hdup⟩ := op_of_holds hc hop
      refine ⟨hopen, hdup, fun hseek => (if_pos rfl).mpr ?_⟩
      obtain ⟨hnode, hsame, hstatus⟩ := (if_pos rfl).mp ((kept_seek hc (hseek ▸ hop)).mp (hk (not_out hc)))
      exact ⟨hnode, (hpos ⟨e, rfl⟩ hseek).trans hsame, hstatus.symm.trans hs⟩
  | @freed op ret =>
    cases ret with
    | ok r => trivial
    | error e =>
      obtain ⟨hopen, hdup, hrest⟩ := hk (not_out rfl)
      refine unharmed_of_holds ⟨hopen, hdup⟩ fun hseek => ?_
      obtain ⟨hnode, hsame, hclosed⟩ := (if_pos rfl).mp (hrest hseek)
      exact ⟨hnode, hsame, .inr ⟨hclosed, rfl⟩⟩

/-! ## The others -/

/-- Where a move starts: the process is out, and the entry is free or opened, or the process is on the entry. -/
theorem Move.source (hm : Move fd f c f' es c') :
    c.Out ∧ (f.status = .none ∨ f.status = .opened) ∨ ∃ role, c.role = some (role, fd) := by
  cases hm with
  | alloc hc hs | dup hc hs => exact .inl ⟨hc, .inl hs⟩
  | close hc hs | closeLast hc hs | acquire hc hs => exact .inl ⟨hc, .inr hs⟩
  | failed hc | stat hc | drop hc | opened hc | release hc | releaseLast hc => exact .inr ⟨_, hc⟩
  | measured => exact .inr ⟨.holds, rfl⟩
  | freed => exact .inr ⟨.frees, rfl⟩

omit [DecidableEq ι] in
theorem calls_two (hpq : p ≠ q) (hp : (s.call p).role = some (role, fd)) (hq : (s.call q).role = some (role, fd)) :
    1 < calls s fd role := by
  refine Finset.one_lt_card.mpr ⟨p, ?_, q, ?_, hpq⟩
  · exact Finset.mem_filter.mpr ⟨Finset.mem_univ p, hp⟩
  · exact Finset.mem_filter.mpr ⟨Finset.mem_univ q, hq⟩

omit [DecidableEq ι] in
/-- **An entry that is being opened or freed is moved by no other process.** -/
theorem FdInv.alone (h : FdInv s) (hp : (s.call p).role = some (role, fd)) (hrole : role ≠ .holds) (hq : q ≠ p) :
    ¬ Move fd (s.table.file fd) (s.call q) f' es c' := by
  intro hm
  have hfits := h.fits fd
  have hpos := calls_pos hp
  cases role with
  | holds => exact hrole rfl
  | opens =>
    have hs := hfits.of_opens hpos
    obtain ⟨-, hh, ho, hr⟩ := hfits.of_init hs
    rcases hm.source with ⟨-, hn | hn⟩ | ⟨role, hrole'⟩
    · exact nomatch hs.symm.trans hn
    · exact nomatch hs.symm.trans hn
    · have := calls_pos hrole'
      cases role with
      | holds => omega
      | frees => omega
      | opens =>
        have := calls_two hq.symm hp hrole'
        omega
  | frees =>
    have hs := hfits.of_frees hpos
    obtain ⟨-, -, ho, hrest⟩ := hfits.of_closed hs
    rcases hm.source with ⟨-, hn | hn⟩ | ⟨role, hrole'⟩
    · exact nomatch hs.symm.trans hn
    · exact nomatch hs.symm.trans hn
    · have := calls_pos hrole'
      cases role with
      | holds => omega
      | opens => omega
      | frees =>
        have := calls_two hq.symm hp hrole'
        omega

/-- What another process has just changed counts as what the call found. -/
theorem kept_refl {x : Nat} {u g : FdFile} (hk : Kept x u g c) (hrole : ∀ role, c.role = some (role, x) → role = .holds) :
    Kept x f f c := by
  cases c with
  | idle | transferring => trivial
  | done op ret =>
    cases ret with
    | ok r => trivial
    | error e => exact unharmed_refl f op
  | opening y | stating y | dropping y =>
    refine (if_neg ?_).mpr rfl
    rintro rfl
    exact nomatch hrole .opens rfl
  | sizing y | seeking y =>
    refine (kept_seek rfl rfl).mpr ?_
    split
    · exact ⟨rfl, rfl, rfl⟩
    · rfl
  | freeing y op ret =>
    cases ret with
    | ok r => trivial
    | error e =>
      refine ⟨hk.1, hk.2.1, fun _ => (if_neg ?_).mpr rfl⟩
      rintro rfl
      exact nomatch hrole .frees rfl

omit [Fintype ι] [DecidableEq ι] in
theorem Effect.kept {t : Table} (he : Effect s.table c t c') (h : c.Out → ∀ fd, s.table.file fd = w fd)
    (hk : ¬ c.Out → ∀ fd, Kept fd (w fd) (s.table.file fd) c) (x : Nat) : Kept x (w x) (t.file x) c' := by
  cases he with
  | @fails op e hc =>
    rw [h hc]
    exact unharmed_refl _ op
  | @move fd f es _ hm =>
    by_cases hx : x = fd
    · subst hx
      rw [put_file]
      exact kept_self hm (fun hc => h hc x) fun hc => hk hc x
    · rw [show (s.table.put fd f es).file x = s.table.file x from Function.update_of_ne hx _ _]
      exact kept_other hm hx (fun hc => h hc x) fun hc => hk hc x

theorem Since.kept (h : Since p s w) : ∀ fd, Kept fd (w fd) (s.table.file fd) (s.call p) := by
  induction h with
  | begin h hout hs =>
    obtain ⟨t, c, he, rfl⟩ := step_effect (.reaches h) hs
    intro fd
    dsimp only
    rw [Function.update_self]
    exact he.kept (fun _ _ => rfl) (fun hc => absurd hout hc) fd
  | own h hin hs ih =>
    obtain ⟨t, c, he, rfl⟩ := step_effect (.reaches h.reached) hs
    intro fd
    dsimp only
    rw [Function.update_self]
    exact he.kept (fun hc => absurd hc hin) (fun _ => ih) fd
  | @other x y q b w h hq hs ih =>
    have hinv : FdInv x := .reaches h.reached
    obtain ⟨t, c, he, rfl⟩ := step_effect hinv hs
    intro fd
    dsimp only
    rw [Function.update_of_ne hq.symm]
    unfold carry
    split
    · next hsame => exact (show t.file fd = x.table.file fd from hsame) ▸ ih fd
    · next hdiff =>
      refine kept_refl (ih fd) fun role hrole => by_contra fun hne => ?_
      cases he with
      | fails => exact hdiff rfl
      | @move fd' f es _ hm =>
        by_cases hfd : fd = fd'
        · subst hfd
          exact hinv.alone hrole hne hq hm
        · exact hdiff (Function.update_of_ne hfd _ _)

/-! ## The table over any run -/

structure Orderly (s : FdSys ι) : Prop where
  life : ∀ fd, ∃ st, Life fd s.table.log st ∧ At (s.table.file fd) st
  openCount : ∀ fd, (s.table.file fd).openCount = (if (s.table.file fd).status = .opened then 1 else 0) + calls s fd .holds
  free : ∀ fd, (s.table.file fd).status = .none → ∀ p, ¬ (s.call p).On fd
  closes : ∀ fd n, openings fd n s.table.log = closings fd n s.table.log + if (s.table.file fd).node = some n ∧
    ((s.table.file fd).status = .opened ∨ (s.table.file fd).status = .closed ∧ 0 < (s.table.file fd).openCount) then 1 else 0
  asserts : ∀ p a m, code (s.call p) a = some m → ∀ e, m s.table ≠ .panic e
  failing : ∀ p w, Since p s w → ∀ op e, s.call p = .done op (.error e) → ∀ fd, Unharmed (w fd) (s.table.file fd) op

/-- Two processes, before any of them has called -/
def twoProcs : FdSys Bool where
  table := { file := fun _ => ⟨.none, false, false, 0, none, 0⟩, filesCount := 2, log := [] }
  call _ := .idle

def runs (l : List (Bool × Act)) : Option (FdSys Bool) := l.foldlM (fun s i => s.step i.1 i.2) twoProcs

theorem runs_reached {l : List (Bool × Act)} {s : FdSys Bool} (h : runs l = some s) : FdReached s :=
  Reaches.foldlM h (.start ⟨fun _ => rfl, fun _ => rfl, by decide, rfl, fun _ => rfl⟩)

theorem runs_snoc {l : List (Bool × Act)} {s s' : FdSys Bool} {p : Bool} {a : Act} (h : runs l = some s)
    (h' : runs (l ++ [(p, a)]) = some s') : s.step p a = some s' := by
  rw [runs, List.foldlM_append, show l.foldlM _ _ = some s from h] at h'
  simpa using h'

/-- A reader waits while the other process closes the file, and frees the entry when it comes back. -/
def closedUnderRead : List (Bool × Act) :=
  [(false, .open 0), (false, .opened (.ok (.dev 1))), (false, .read 0), (true, .close 0), (false, .transferred 0 5), (false, .closed)]

theorem exists_runs {l : List (Bool × Act)} (g : FdSys Bool → Bool) (h : (runs l).any g = true) :
    ∃ s, runs l = some s ∧ g s = true := by
  cases hs : runs l with
  | none => simp [hs] at h
  | some s => exact ⟨s, rfl, by simpa [hs] using h⟩

def Call.failed (op : Op) : Call → Bool
  | .done op' (.error _) => decide (op' = op)
  | _                    => false

theorem exists_of_failed {op : Op} (h : c.failed op = true) : ∃ e, c = .done op (.error e) := by
  cases c with
  | done op' ret =>
    cases ret with
    | ok r => exact nomatch h
    | error e => exact ⟨e, of_decide_eq_true h ▸ rfl⟩
  | idle | opening | stating | dropping | transferring | sizing | seeking | freeing => exact nomatch h

/-- The entry 0 has been used, and is free. -/
def usedBefore : List (Bool × Act) := [(false, .open 0), (false, .opened (.ok (.dev 1))), (false, .close 0), (false, .closed)]

theorem open_drops_node : ¬ ∀ (s : FdSys Bool) w e, Since false s w → s.call false = .done .open (.error e) →
    ∀ fd, (s.table.file fd).node = (w fd).node := by
  intro hclaim
  obtain ⟨s1, h1, hg1⟩ := exists_runs (fun s => decide (s.call false).Out && decide ((s.table.file 0).node = some (.dev 1)))
    (show (runs usedBefore).any _ = true by decide +kernel)
  obtain ⟨s2, h2, hg2⟩ := exists_runs (fun s => !decide (s.call false).Out)
    (show (runs (usedBefore ++ [(false, .open 0)])).any _ = true by decide +kernel)
  obtain ⟨s3, h3, hg3⟩ := exists_runs (fun s => (s.call false).failed .open && decide ((s.table.file 0).node = none))
    (show (runs ((usedBefore ++ [(false, .open 0)]) ++ [(false, .opened (.error (-2)))])).any _ = true by decide +kernel)
  simp only [Bool.and_eq_true, Bool.not_eq_true', decide_eq_true_eq, decide_eq_false_iff_not] at hg1 hg2 hg3
  have hsince : Since false s3 s1.table.file := .own (.begin (runs_reached h1) hg1.1 (runs_snoc h1 h2)) hg2 (runs_snoc h2 h3)
  obtain ⟨e, he⟩ := exists_of_failed hg3.1
  have := hclaim s3 s1.table.file e hsince he 0
  rw [hg1.2, hg3.2] at this
  exact nomatch this

/-- The entry 0 is open. -/
def openedBefore : List (Bool × Act) := [(false, .open 0), (false, .opened (.ok (.dev 1)))]

theorem seek_frees : ¬ ∀ (s : FdSys Bool) w e, Since false s w → s.call false = .done .seek (.error e) →
    ∀ fd, (s.table.file fd).status = (w fd).status := by
  intro hclaim
  obtain ⟨s1, h1, hg1⟩ := exists_runs (fun s => decide (s.call false).Out)
    (show (runs openedBefore).any _ = true by decide +kernel)
  obtain ⟨s2, h2, hg2⟩ := exists_runs (fun s => !decide (s.call false).Out && decide ((s.table.file 0).status = .opened))
    (show (runs (openedBefore ++ [(false, .seek 0 5 0)])).any _ = true by decide +kernel)
  obtain ⟨s3, h3, hg3⟩ := exists_runs (fun s => !decide (s.call false).Out && decide ((s.table.file 0).status = .closed))
    (show (runs ((openedBefore ++ [(false, .seek 0 5 0)]) ++ [(true, .close 0)])).any _ = true by decide +kernel)
  obtain ⟨s4, h4, hg4⟩ := exists_runs (fun s => !decide (s.call false).Out)
    (show (runs (((openedBefore ++ [(false, .seek 0 5 0)]) ++ [(true, .close 0)]) ++ [(false, .sought (-3))])).any _ = true by
      decide +kernel)
  obtain ⟨s5, h5, hg5⟩ := exists_runs (fun s => (s.call false).failed .seek && decide ((s.table.file 0).status = .none))
    (show (runs ((((openedBefore ++ [(false, .seek 0 5 0)]) ++ [(true, .close 0)]) ++ [(false, .sought (-3))]) ++
      [(false, .closed)])).any _ = true by decide +kernel)
  simp only [Bool.and_eq_true, Bool.not_eq_true', decide_eq_true_eq, decide_eq_false_iff_not] at hg1 hg2 hg3 hg4 hg5
  have hclose : Since false s3 (carry s1.table.file s2 s3) :=
    .other (.begin (runs_reached h1) hg1 (runs_snoc h1 h2)) (by decide) (runs_snoc h2 h3)
  have hsince : Since false s5 (carry s1.table.file s2 s3) := .own (.own hclose hg3.1 (runs_snoc h3 h4)) hg4 (runs_snoc h4 h5)
  obtain ⟨e, he⟩ := exists_of_failed hg5.1
  have hdiff : s3.table.file 0 ≠ s2.table.file 0 := fun h => by
    rw [h, hg2.2] at hg3
    exact nomatch hg3.2
  have := hclaim s5 _ e hsince he 0
  rw [hg5.2, carry, if_neg hdiff, hg3.2] at this
  exact nomatch this

/-- An open is in progress on its entry and not counted there. -/
theorem open_not_counted : ¬ ∀ (s : FdSys Bool), FdReached s → ∀ fd, (s.table.file fd).openCount =
    (if (s.table.file fd).status = .opened then 1 else 0) + (calls s fd .holds + calls s fd .opens + calls s fd .frees : Nat) := by
  intro hclaim
  obtain ⟨s, hs, hg⟩ := exists_runs (fun s => decide ((s.table.file 0).openCount = 0) && decide ((s.table.file 0).status = .init) &&
      decide (calls s 0 .holds + calls s 0 .opens + calls s 0 .frees = 1))
    (show (runs [(false, .open 0)]).any _ = true by decide +kernel)
  simp only [Bool.and_eq_true, decide_eq_true_eq] at hg
  obtain ⟨⟨hcount, hstatus⟩, hcalls⟩ := hg
  have := hclaim s (runs_reached hs) 0
  rw [hcount, hstatus, hcalls] at this
  exact absurd this (by decide)

end Ucore.FdTable
