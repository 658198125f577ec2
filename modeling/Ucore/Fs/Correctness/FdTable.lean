import Ucore.Lib.Run
import Ucore.Lib.Tally
import Ucore.Fs.FdTable
import Mathlib.Data.Fintype.Defs

/-!
# `Fs.Correctness.FdTable` — the life of a descriptor

The life of an entry is a path through its stages (`Life`), on which an entry that is opened with an inode is given back to the
inode layer once, before it is free again. A step of a process makes one `Move` of one entry, or none at all; which moves there are
is said once (`code_run`), and everything else is a matter of the moves.
-/

namespace Ucore.FdTable

open Vfs

/-! ## The life of an entry -/

/-- Where an entry is in its life: between the call of `vfs_close` and `FD_NONE` it is `released`. -/
inductive Stage where
  | free
  | init
  | opened (node : Node)
  | closed (node : Node)
  | released (node : Node)
deriving DecidableEq

def Event.fd : Event → Nat
  | .status fd _ _ _ => fd
  | .vfsClose fd _   => fd

/-- What happened to the entry `fd`, the last event first, and where it is now. -/
inductive Life (fd : Nat) : List Event → Stage → Prop where
  | start : Life fd [] .free
  | alloc {log n} (h : Life fd log .free) : Life fd (.status fd .none .init n :: log) .init
  | failed {log n} (h : Life fd log .init) : Life fd (.status fd .init .none n :: log) .free
  | opening {log n} (h : Life fd log .init) : Life fd (.status fd .init .opened (some n) :: log) (.opened n)
  | close {log n} (h : Life fd log (.opened n)) : Life fd (.status fd .opened .closed (some n) :: log) (.closed n)
  | vfsClose {log n} (h : Life fd log (.closed n)) : Life fd (.vfsClose fd (some n) :: log) (.released n)
  | free {log n m} (h : Life fd log (.released n)) : Life fd (.status fd .closed .none m :: log) .free
  | other {log e st} (he : e.fd ≠ fd) (h : Life fd log st) : Life fd (e :: log) st

/-- The times that the entry became `FD_OPENED` with `n`, and the calls of `vfs_close` for it and `n` -/
def openings (fd : Nat) (n : Node) (log : List Event) : Nat := log.count (.status fd .init .opened (some n))

def closings (fd : Nat) (n : Node) (log : List Event) : Nat := log.count (.vfsClose fd (some n))

/-- An entry that is `FD_OPENED`, or `FD_CLOSED` with a call in progress, still has its `vfs_close` ahead. -/
def Stage.owes (n : Node) : Stage → Nat
  | .opened m => if m = n then 1 else 0
  | .closed m => if m = n then 1 else 0
  | _         => 0

/-- **Once for each opening.** -/
theorem Life.balance {fd : Nat} {log : List Event} {st : Stage} (h : Life fd log st) (n : Node) :
    openings fd n log = closings fd n log + st.owes n := by
  unfold openings closings
  induction h with
  | start => rfl
  | alloc _ ih => simpa [Stage.owes] using ih
  | failed _ ih => simpa [Stage.owes] using ih
  | @opening log m _ ih =>
    simp only [Stage.owes, Nat.add_zero] at ih
    rw [List.count_cons, List.count_cons, ih]
    simp [Stage.owes]
  | @close log m _ ih => simpa [Stage.owes] using ih
  | @vfsClose log m _ ih =>
    rw [List.count_cons, List.count_cons, ih]
    simp [Stage.owes]
  | free _ ih => simpa [Stage.owes] using ih
  | @other log e st he _ ih =>
    have hopen : e ≠ .status fd .init .opened (some n) := fun h => he (h ▸ rfl)
    have hclose : e ≠ .vfsClose fd (some n) := fun h => he (h ▸ rfl)
    rw [List.count_cons_of_ne hopen, List.count_cons_of_ne hclose, ih]

theorem Life.others {fd : Nat} {log es : List Event} {st : Stage} (h : Life fd log st) (hes : ∀ e ∈ es, e.fd ≠ fd) :
    Life fd (es ++ log) st := by
  induction es with
  | nil => exact h
  | cons e es ih => exact .other (hes e List.mem_cons_self) (ih fun e' he' => hes e' (List.mem_cons_of_mem e he'))

/-! ## Moves -/

/-- The entry `fd` becomes `f`, with `es` in the log. -/
def Table.put (t : Table) (fd : Nat) (f : FdFile) (es : List Event) : Table :=
  { t with file := Function.update t.file fd f, log := es ++ t.log }

/-- A call opens an entry, or it has acquired it, or it is freeing it. -/
inductive Role where
  | opens
  | holds
  | frees
deriving DecidableEq

namespace Call

/-- The entry that the call is in progress on, and in which role -/
def role : Call → Option (Role × Nat)
  | opening fd _ _ _   => some (.opens, fd)
  | stating fd _ _ _   => some (.opens, fd)
  | dropping fd _ _    => some (.opens, fd)
  | transferring _ fd  => some (.holds, fd)
  | sizing fd _        => some (.holds, fd)
  | seeking fd _       => some (.holds, fd)
  | freeing fd _ _     => some (.frees, fd)
  | idle               => none
  | done _ _           => none

def op : Call → Option Op
  | opening _ _ _ _      => some .open
  | stating _ _ _ _      => some .open
  | dropping _ _ _       => some .open
  | transferring write _ => some (transferOp write)
  | sizing _ _           => some .seek
  | seeking _ _          => some .seek
  | freeing _ op _       => some op
  | idle                 => none
  | done _ _             => none

/-- The call is in progress on the entry `fd`. -/
def On (c : Call) (fd : Nat) : Prop := ∃ role, c.role = some (role, fd)

theorem role_of_out {c : Call} (h : c.Out) : c.role = none := by
  cases c with
  | idle | done => rfl
  | opening | stating | dropping | transferring | sizing | seeking | freeing => exact h.elim

end Call

/-- **What a step does to the entry `fd`**, and to the call: the entry becomes `f'`, with `es` in the log. -/
inductive Move (fd : Nat) (f : FdFile) : Call → FdFile → List Event → Call → Prop where
  | alloc {c r w append} (hc : c.Out) (hs : f.status = .none) :
      Move fd f c { f with status := .init, node := none } [.status fd .none .init f.node] (.opening fd r w append)
  | failed {c e} (hc : c.role = some (.opens, fd)) (hs : f.status = .init) :
      Move fd f c { f with status := .none } [.status fd .init .none f.node] (.done .open (.error e))
  | stat {c n r w} (hc : c.role = some (.opens, fd)) (hs : f.status = .init) : Move fd f c { f with pos := 0 } [] (.stating fd n r w)
  | drop {c n e} (hc : c.role = some (.opens, fd)) (hs : f.status = .init) : Move fd f c f [] (.dropping fd n e)
  | opened {c n r w pos} (hc : c.role = some (.opens, fd)) (hs : f.status = .init) :
      Move fd f c ⟨.opened, r, w, pos, some n, f.openCount + 1⟩ [.status fd .init .opened (some n)] (.done .open (.ok fd))
  | dup {c n r w pos m} (hc : c.Out) (hs : f.status = .none) :
      Move fd f c ⟨.opened, r, w, pos, some n, f.openCount + 1⟩ [.status fd .init .opened (some n), .status fd .none .init m]
        (.done .dup (.ok fd))
  | close {c} (hc : c.Out) (hs : f.status = .opened) (hcount : f.openCount - 1 ≠ 0) :
      Move fd f c { f with status := .closed, openCount := f.openCount - 1 } [.status fd .opened .closed f.node]
        (.done .close (.ok 0))
  | closeLast {c} (hc : c.Out) (hs : f.status = .opened) (hcount : f.openCount - 1 = 0) :
      Move fd f c { f with status := .closed, openCount := f.openCount - 1 }
        [.vfsClose fd f.node, .status fd .opened .closed f.node] (.freeing fd .close (.ok 0))
  | acquire {c c'} (hc : c.Out) (hs : f.status = .opened) (hc' : c'.role = some (.holds, fd)) :
      Move fd f c { f with openCount := f.openCount + 1 } [] c'
  | measured {pos pos'} : Move fd f (.sizing fd pos) f [] (.seeking fd pos')
  | release {c op ret pos} (hc : c.role = some (.holds, fd)) (hcount : f.openCount - 1 ≠ 0)
      (hpos : (∃ e, ret = .error e) → op = .seek → pos = f.pos) (hop : c.op = some op) :
      Move fd f c { f with pos := pos, openCount := f.openCount - 1 } [] (.done op ret)
  | releaseLast {c op ret pos} (hc : c.role = some (.holds, fd)) (hs : f.status = .closed) (hcount : f.openCount - 1 = 0)
      (hpos : (∃ e, ret = .error e) → op = .seek → pos = f.pos) (hop : c.op = some op) :
      Move fd f c { f with pos := pos, openCount := f.openCount - 1 } [.vfsClose fd f.node] (.freeing fd op ret)
  | freed {op ret} (hs : f.status = .closed) :
      Move fd f (.freeing fd op ret) { f with status := .none } [.status fd .closed .none f.node] (.done op ret)

/-- A step makes a move, or the call fails at once and nothing changes. -/
inductive Effect (t : Table) (c : Call) : Table → Call → Prop where
  | move {fd f es c'} (h : Move fd (t.file fd) c f es c') : Effect t c (t.put fd f es) c'
  | fails {op e} (hc : c.Out) : Effect t c t (.done op (.error e))

/-! ## The functions -/

section Functions

variable {t : Table} {fd : Nat} {f : FdFile} {es es' : List Event} {op : Op} {ret : Except Int Int}

@[simp] theorem put_file (t : Table) (fd : Nat) (f : FdFile) (es : List Event) : (t.put fd f es).file fd = f := by
  unfold Table.put
  exact Function.update_self fd f t.file

@[simp] theorem put_put (t : Table) (fd : Nat) (f f' : FdFile) (es es' : List Event) :
    (t.put fd f es).put fd f' es' = t.put fd f' (es' ++ es) := by
  simp only [Table.put, Function.update_idem, List.append_assoc]

@[simp] theorem put_filesCount (t : Table) (fd : Nat) (f : FdFile) (es : List Event) :
    (t.put fd f es).filesCount = t.filesCount := rfl

@[simp] theorem put_log (t : Table) (fd : Nat) (f : FdFile) (es : List Event) : (t.put fd f es).log = es ++ t.log := rfl

theorem put_same (t : Table) (fd : Nat) : t.put fd (t.file fd) [] = t := by
  simp only [Table.put, Function.update_eq_self, List.nil_append]

@[simp] theorem getFile_bind {α : Type} (k : FdFile → TableM α) (t : Table) : (getFile fd >>= k) t = k (t.file fd) t := rfl

@[simp] theorem setFile_bind {α : Type} (k : Unit → TableM α) (t : Table) : (setFile fd f >>= k) t = k () (t.put fd f []) := rfl

@[simp] theorem setStatus_bind {α : Type} {st : FdStatus} (k : Unit → TableM α) (t : Table) : (setStatus fd st >>= k) t =
    k () (t.put fd { t.file fd with status := st } [.status fd (t.file fd).status st (t.file fd).node]) := rfl

theorem fdArrayFree_init (hs : (t.file fd).status = .init) (hc : (t.file fd).openCount = 0) : fdArrayFree fd op ret t =
    .ok (.done op ret) (t.put fd { t.file fd with status := .none } [.status fd .init .none (t.file fd).node]) := by
  unfold fdArrayFree
  rw [getFile_bind, Proc.check_bind_pos (.inl hs), Proc.check_bind_pos hc, if_neg (by rw [hs]; decide), setStatus_bind, hs]
  rfl

theorem fdArrayFree_closed (hs : (t.file fd).status = .closed) (hc : (t.file fd).openCount = 0) : fdArrayFree fd op ret t =
    .ok (.freeing fd op ret) (t.put fd (t.file fd) [.vfsClose fd (t.file fd).node]) := by
  unfold fdArrayFree
  rw [getFile_bind, Proc.check_bind_pos (.inr hs), Proc.check_bind_pos hc, if_pos hs, Table.put, Function.update_eq_self]
  rfl

theorem fdArrayRelease_more (hs : (t.file fd).status = .opened ∨ (t.file fd).status = .closed) (hc : 0 < (t.file fd).openCount)
    (hmore : (t.file fd).openCount - 1 ≠ 0) : fdArrayRelease fd op ret t =
    .ok (.done op ret) (t.put fd { t.file fd with openCount := (t.file fd).openCount - 1 } []) := by
  unfold fdArrayRelease
  rw [getFile_bind, Proc.check_bind_pos hs, Proc.check_bind_pos hc, setFile_bind, if_neg hmore]
  rfl

theorem fdArrayRelease_last (hs : (t.file fd).status = .closed) (hc : 0 < (t.file fd).openCount)
    (hlast : (t.file fd).openCount - 1 = 0) : fdArrayRelease fd op ret t = .ok (.freeing fd op ret)
      (t.put fd { t.file fd with openCount := (t.file fd).openCount - 1 } [.vfsClose fd (t.file fd).node]) := by
  unfold fdArrayRelease
  rw [getFile_bind, Proc.check_bind_pos (.inr hs), Proc.check_bind_pos hc, setFile_bind, if_pos hlast,
    fdArrayFree_closed (by rw [put_file]; exact hs) (by rw [put_file]; exact hlast)]
  simp only [put_file, put_put, List.append_nil]

theorem fdArrayOpen_run (hs : (t.file fd).status = .init) (hn : (t.file fd).node ≠ none) : fdArrayOpen fd t =
    .ok () (t.put fd { t.file fd with status := .opened, openCount := (t.file fd).openCount + 1 }
      [.status fd .init .opened (t.file fd).node]) := by
  unfold fdArrayOpen
  rw [getFile_bind, Proc.check_bind_pos ⟨hs, hn⟩, setStatus_bind, getFile_bind, put_file, hs]
  change Outcome.ok () ((t.put fd _ _).put fd _ []) = _
  rw [put_put]
  rfl

theorem fdArrayClose_more (hs : (t.file fd).status = .opened) (hc : 0 < (t.file fd).openCount)
    (hmore : (t.file fd).openCount - 1 ≠ 0) : fdArrayClose fd op ret t = .ok (.done op ret)
      (t.put fd { t.file fd with status := .closed, openCount := (t.file fd).openCount - 1 }
        [.status fd .opened .closed (t.file fd).node]) := by
  unfold fdArrayClose
  rw [getFile_bind, Proc.check_bind_pos hs, Proc.check_bind_pos hc, setStatus_bind, getFile_bind, put_file, setFile_bind, put_put,
    if_neg hmore, hs]
  rfl

theorem fdArrayClose_last (hs : (t.file fd).status = .opened) (hc : 0 < (t.file fd).openCount)
    (hlast : (t.file fd).openCount - 1 = 0) : fdArrayClose fd op ret t = .ok (.freeing fd op ret)
      (t.put fd { t.file fd with status := .closed, openCount := (t.file fd).openCount - 1 }
        [.vfsClose fd (t.file fd).node, .status fd .opened .closed (t.file fd).node]) := by
  unfold fdArrayClose
  rw [getFile_bind, Proc.check_bind_pos hs, Proc.check_bind_pos hc, setStatus_bind, getFile_bind, put_file, setFile_bind, put_put,
    if_pos hlast, fdArrayFree_closed (by rw [put_file]) (by rw [put_file]; exact hlast), hs]
  simp only [put_file, put_put, List.nil_append, List.cons_append]

/-- What the functions rely on, for a process in `c` -/
structure Ready (t : Table) (c : Call) : Prop where
  filesCount : 0 < t.filesCount
  free : ∀ fd, (t.file fd).status = .none → (t.file fd).openCount = 0
  opened : ∀ fd, (t.file fd).status = .opened → 0 < (t.file fd).openCount ∧ (t.file fd).node ≠ none
  holds : ∀ fd, c.role = some (.holds, fd) → ((t.file fd).status = .opened ∧ (t.file fd).openCount - 1 ≠ 0 ∨ (t.file fd).status = .closed) ∧
    0 < (t.file fd).openCount ∧ (t.file fd).node ≠ none
  opens : ∀ fd, c.role = some (.opens, fd) → (t.file fd).status = .init ∧ (t.file fd).openCount = 0
  frees : ∀ fd, c.role = some (.frees, fd) → (t.file fd).status = .closed

variable {c : Call} {x : Int}

theorem fdArrayFound_run (hs : (t.file fd).status = .none) (hc : (t.file fd).openCount = 0) : fdArrayFound fd t =
    .ok fd (t.put fd { t.file fd with status := .init, node := none } [.status fd .none .init (t.file fd).node]) := by
  unfold fdArrayFound
  rw [getFile_bind, Proc.check_bind_pos hc, setStatus_bind, getFile_bind, put_file, setFile_bind, put_put, hs]
  rfl

theorem fdArrayAlloc_run (h : Ready t c) : (∃ e, fdArrayAlloc x t = .err e t) ∨ ∃ fd, (t.file fd).status = .none ∧
    fdArrayAlloc x t =
      .ok fd (t.put fd { t.file fd with status := .init, node := none } [.status fd .none .init (t.file fd).node]) := by
  have found : ∀ {fd}, (t.file fd).status = .none → fdArrayFound fd t =
      .ok fd (t.put fd { t.file fd with status := .init, node := none } [.status fd .none .init (t.file fd).node]) :=
    fun hs => fdArrayFound_run hs (h.free _ hs)
  have hget : getFdArray t = .ok () t := Proc.check_run_pos h.filesCount t
  unfold fdArrayAlloc
  rw [Proc.bind_ok hget, Proc.get_bind]
  by_cases hno : x = noFd
  · rw [if_pos hno]
    cases hfind : (List.range filesStructNentry).find? fun fd => (t.file fd).status = .none with
    | none => exact .inl ⟨_, rfl⟩
    | some fd =>
      have hdec := List.find?_some hfind
      have hs : (t.file fd).status = .none := of_decide_eq_true hdec
      exact .inr ⟨fd, hs, found hs⟩
  · rw [if_neg hno]
    by_cases htest : testfd x = true
    · rw [if_pos htest]
      by_cases hs : (t.file x.toNat).status = .none
      · rw [if_pos hs]
        exact .inr ⟨x.toNat, hs, found hs⟩
      · rw [if_neg hs]
        exact .inl ⟨_, rfl⟩
    · rw [if_neg htest]
      exact .inl ⟨_, rfl⟩

theorem fd2file_run (h : Ready t c) : (∃ e, fd2file x t = .err e t) ∨
    ∃ fd, (t.file fd).status = .opened ∧ fd2file x t = .ok fd t := by
  have hget : getFdArray t = .ok () t := Proc.check_run_pos h.filesCount t
  unfold fd2file
  by_cases htest : testfd x = true
  · rw [if_pos htest, Proc.bind_ok hget, getFile_bind]
    by_cases hs : (t.file x.toNat).status = .opened
    · rw [if_pos hs]
      exact .inr ⟨x.toNat, hs, rfl⟩
    · rw [if_neg hs]
      exact .inl ⟨_, rfl⟩
  · rw [if_neg htest]
    exact .inl ⟨_, rfl⟩

theorem ended_ok {m : TableM Call} {t' : Table} {c' : Call} (h : m t = .ok c' t') : ended op m t = .ok c' t' := by
  unfold ended
  rw [Proc.bind_ok (Proc.attempt_ok h)]
  rfl

theorem ended_err {m : TableM Call} {t' : Table} {e : Int} (h : m t = .err e t') :
    ended op m t = .ok (.done op (.error e)) t' := by
  unfold ended
  rw [Proc.bind_ok (Proc.attempt_err h)]
  rfl

/-! ## The calls -/

/-- The step returns, and its effect is one of those above. -/
def Runs (t : Table) (c : Call) (m : TableM Call) : Prop := ∃ c' t', m t = .ok c' t' ∧ Effect t c t' c'

theorem Runs.of_err {m : TableM Call} {e : Int} (hc : c.Out) (h : m t = .err e t) : Runs t c (ended op m) :=
  ⟨_, t, ended_err h, .fails hc⟩

theorem Runs.move {m : TableM Call} {c' : Call} (h : m t = .ok c' (t.put fd f es)) (hm : Move fd (t.file fd) c f es c') :
    Runs t c m := ⟨c', _, h, .move hm⟩

theorem Runs.ended {m : TableM Call} (h : Runs t c m) : Runs t c (ended op m) := by
  obtain ⟨c', t', hrun, he⟩ := h
  exact ⟨c', t', ended_ok hrun, he⟩

/-- A function that begins with `fd2file` -/
theorem Runs.of_fd2file {k : Nat → TableM Call} (h : Ready t c) (hc : c.Out)
    (hk : ∀ fd, (t.file fd).status = .opened → (∃ e, k fd t = .err e t) ∨ Runs t c (k fd)) :
    Runs t c (Ucore.FdTable.ended op (fd2file x >>= k)) := by
  rcases fd2file_run (x := x) h with ⟨e, he⟩ | ⟨fd, hs, hok⟩
  · exact .of_err hc (Proc.bind_err he)
  · rcases hk fd hs with ⟨e, he⟩ | ⟨c', t', hrun, heff⟩
    · exact .of_err hc ((Proc.bind_ok hok).trans he)
    · exact ⟨c', t', ended_ok ((Proc.bind_ok hok).trans hrun), heff⟩

theorem runs_fileOpen {flags : Nat} (h : Ready t c) (hc : c.Out) : Runs t c (fileOpen flags) := by
  unfold fileOpen
  cases oAccmode flags with
  | none => exact ⟨_, t, rfl, .fails hc⟩
  | some acc =>
    obtain ⟨readable, writable⟩ := acc
    rcases fdArrayAlloc_run (x := noFd) h with ⟨e, he⟩ | ⟨fd, hs, hok⟩
    · exact .of_err hc (Proc.bind_err he)
    · exact Runs.ended (.move (Proc.bind_ok hok) (.alloc hc hs))

theorem runs_fileOpened {n : Node} {readable writable : Bool} (pos : Int) (h : Ready t c) (hc : c.role = some (.opens, fd))
    (hf : f = { t.file fd with pos := pos }) (hes : es = []) :
    ∃ c' t', fileOpened fd n readable writable (t.put fd f es) = .ok c' t' ∧ Effect t c t' c' := by
  subst hf hes
  obtain ⟨hs, -⟩ := h.opens fd hc
  unfold fileOpened
  rw [getFile_bind, put_file, setFile_bind, put_put, Proc.bind_ok (fdArrayOpen_run (by rw [put_file]; exact hs) (by rw [put_file]; simp)),
    put_file, put_put]
  exact ⟨_, _, rfl, .move (.opened hc hs)⟩

theorem runs_fileOpenNode {readable writable append : Bool} {node : Except Int Node} (h : Ready t c) (hc : c.role = some (.opens, fd)) :
    Runs t c (fileOpenNode fd readable writable append node) := by
  obtain ⟨hs, hcount⟩ := h.opens fd hc
  cases node with
  | error e => exact .move (fdArrayFree_init hs hcount) (.failed hc hs)
  | ok n =>
    have hset : fileOpenNode fd readable writable append (.ok n) t =
        (if append = true then pure (.stating fd n readable writable) else fileOpened fd n readable writable)
          (t.put fd { t.file fd with pos := 0 } []) := rfl
    unfold Runs
    rw [hset]
    split
    · exact ⟨_, _, rfl, .move (.stat hc hs)⟩
    · exact runs_fileOpened 0 h hc rfl rfl

theorem runs_fileOpenStat {n : Node} {readable writable : Bool} {size : Except Int Int} (h : Ready t c) (hc : c.role = some (.opens, fd)) :
    Runs t c (fileOpenStat fd n readable writable size) := by
  obtain ⟨hs, -⟩ := h.opens fd hc
  cases size with
  | error e => exact .move (congrArg _ (put_same t fd).symm) (.drop hc hs)
  | ok size => exact runs_fileOpened size h hc rfl rfl

theorem runs_fileClose (h : Ready t c) (hc : c.Out) : Runs t c (fileClose x) := by
  refine Runs.of_fd2file h hc fun fd hs => .inr ?_
  obtain ⟨hcount, -⟩ := h.opened fd hs
  by_cases hlast : (t.file fd).openCount - 1 = 0
  · exact .move (fdArrayClose_last hs hcount hlast) (.closeLast hc hs hlast)
  · exact .move (fdArrayClose_more hs hcount hlast) (.close hc hs hlast)

theorem fdArrayAcquire_run (hs : (t.file fd).status = .opened) : fdArrayAcquire fd t =
    .ok () (t.put fd { t.file fd with openCount := (t.file fd).openCount + 1 } []) := by
  unfold fdArrayAcquire
  rw [getFile_bind, Proc.check_bind_pos hs]
  rfl

theorem vopNode_run (hn : (t.file fd).node ≠ none) : vopNode fd t = .ok () t := by
  unfold vopNode
  rw [getFile_bind]
  exact Proc.check_run_pos hn t

theorem runs_fileTransfer {write : Bool} (h : Ready t c) (hc : c.Out) : Runs t c (fileTransfer write x) := by
  refine Runs.of_fd2file h hc fun fd hs => ?_
  obtain ⟨-, hn⟩ := h.opened fd hs
  unfold Runs
  rw [getFile_bind]
  by_cases hallowed : (if write = true then (t.file fd).writable else (t.file fd).readable) = false
  · rw [if_pos hallowed]
    exact .inl ⟨_, rfl⟩
  · rw [if_neg hallowed]
    have hmove : Move fd (t.file fd) c { t.file fd with openCount := (t.file fd).openCount + 1 } [] (.transferring write fd) :=
      .acquire hc hs rfl
    rw [Proc.bind_ok (fdArrayAcquire_run hs), Proc.bind_ok (vopNode_run (by rw [put_file]; exact hn))]
    exact .inr ⟨_, _, rfl, .move hmove⟩

theorem runs_release (op : Op) (ret : Except Int Int) (pos : Int) (h : Ready t c) (hc : c.role = some (.holds, fd)) (hop : c.op = some op)
    (hpos : (∃ e, ret = .error e) → op = .seek → pos = (t.file fd).pos) (hf : f = { t.file fd with pos := pos }) :
    ∃ c' t', fdArrayRelease fd op ret (t.put fd f []) = .ok c' t' ∧ Effect t c t' c' := by
  subst hf
  obtain ⟨hs, hcount, -⟩ := h.holds fd hc
  by_cases hlast : (t.file fd).openCount - 1 = 0
  · have hclosed : (t.file fd).status = .closed := hs.resolve_left fun ho => ho.2 hlast
    rw [fdArrayRelease_last (by rw [put_file]; exact hclosed) (by rw [put_file]; exact hcount) (by rw [put_file]; exact hlast),
      put_file, put_put]
    exact ⟨_, _, rfl, .move (.releaseLast hc hclosed hlast hpos hop)⟩
  · rw [fdArrayRelease_more (by rw [put_file]; exact hs.imp_left And.left) (by rw [put_file]; exact hcount)
      (by rw [put_file]; exact hlast), put_file, put_put]
    exact ⟨_, _, rfl, .move (.release hc hlast hpos hop)⟩

theorem runs_fileTransferred {write : Bool} {r : Int} {copied : Nat} (h : Ready t (.transferring write fd)) :
    Runs t (.transferring write fd) (fileTransferred write fd r copied) := by
  have hne : transferOp write ≠ .seek := by cases write <;> decide
  unfold Runs fileTransferred
  rw [getFile_bind]
  split
  · exact runs_release _ _ ((t.file fd).pos + copied) h rfl rfl (fun _ hseek => absurd hseek hne) rfl
  · have := runs_release (transferOp write) (answer r) (t.file fd).pos h rfl rfl (fun _ _ => rfl) rfl
    rwa [put_same] at this

theorem runs_fileSeekStat {pos : Int} {size : Except Int Int} (h : Ready t (.sizing fd pos)) :
    Runs t (.sizing fd pos) (fileSeekStat fd pos size) := by
  obtain ⟨-, -, hn⟩ := h.holds fd rfl
  cases size with
  | error e =>
    have := runs_release .seek (.error e) (t.file fd).pos h rfl rfl (fun _ _ => rfl) rfl
    rwa [put_same] at this
  | ok size =>
    exact .move ((Proc.bind_ok (vopNode_run hn)).trans (congrArg _ (put_same t fd).symm)) .measured

theorem runs_fileSought {pos r : Int} (h : Ready t (.seeking fd pos)) : Runs t (.seeking fd pos) (fileSought fd pos r) := by
  unfold Runs fileSought
  by_cases hr : r = 0
  · rw [if_pos hr]
    refine runs_release _ _ pos h rfl rfl ?_ rfl
    rintro ⟨e, he⟩
    simp [answer, hr] at he
  · rw [if_neg hr]
    have := runs_release .seek (answer r) (t.file fd).pos h rfl rfl (fun _ _ => rfl) rfl
    rwa [put_same] at this

theorem runs_fileSeek {pos whence : Int} (h : Ready t c) (hc : c.Out) : Runs t c (fileSeek x pos whence) := by
  refine Runs.of_fd2file h hc fun fd hs => .inr ?_
  obtain ⟨hcount, hn⟩ := h.opened fd hs
  have hheld : ((t.put fd { t.file fd with openCount := (t.file fd).openCount + 1 } []).file fd).node ≠ none := by
    rw [put_file]
    exact hn
  have acquired : ∀ {m : TableM Call} {c' : Call}, c'.role = some (.holds, fd) →
      m (t.put fd { t.file fd with openCount := (t.file fd).openCount + 1 } []) =
        .ok c' (t.put fd { t.file fd with openCount := (t.file fd).openCount + 1 } []) →
      ∃ c' t', m (t.put fd { t.file fd with openCount := (t.file fd).openCount + 1 } []) = .ok c' t' ∧ Effect t c t' c' :=
    fun hc' hm => ⟨_, _, hm, .move (.acquire hc hs hc')⟩
  unfold Runs
  rw [Proc.bind_ok (fdArrayAcquire_run hs), getFile_bind]
  by_cases hset : whence = lseekSet
  · rw [if_pos hset]
    exact acquired rfl (Proc.bind_ok (vopNode_run hheld))
  · rw [if_neg hset]
    by_cases hcur : whence = lseekCur
    · rw [if_pos hcur]
      exact acquired rfl (Proc.bind_ok (vopNode_run hheld))
    · rw [if_neg hcur]
      by_cases hend : whence = lseekEnd
      · rw [if_pos hend]
        exact acquired rfl (Proc.bind_ok (vopNode_run hheld))
      · rw [if_neg hend, fdArrayRelease_more (by rw [put_file]; exact .inl hs) (by rw [put_file]; dsimp only; omega)
          (by rw [put_file]; dsimp only; omega), put_file, put_put]
        have hsame : { t.file fd with openCount := (t.file fd).openCount + 1 - 1 } = t.file fd := by
          rw [Int.add_sub_cancel]
        refine ⟨_, _, rfl, ?_⟩
        change Effect t c (t.put fd { t.file fd with openCount := (t.file fd).openCount + 1 - 1 } []) _
        rw [hsame, put_same]
        exact .fails hc

theorem fdArrayDup_run {toFd fromFd : Nat} (hs : (t.file toFd).status = .init) (hfrom : (t.file fromFd).status = .opened)
    (hn : (t.file fromFd).node ≠ none) : fdArrayDup toFd fromFd t =
    .ok () (t.put toFd ⟨.opened, (t.file fromFd).readable, (t.file fromFd).writable, (t.file fromFd).pos, (t.file fromFd).node,
      (t.file toFd).openCount + 1⟩ [.status toFd .init .opened (t.file fromFd).node]) := by
  unfold fdArrayDup
  rw [getFile_bind, getFile_bind, Proc.check_bind_pos ⟨hs, hfrom⟩, Proc.check_bind_pos hn, setFile_bind,
    fdArrayOpen_run (by rw [put_file]; exact hs) (by rw [put_file]; exact hn), put_file, put_put]
  rfl

theorem runs_fileDup {x y : Int} (h : Ready t c) (hc : c.Out) : Runs t c (fileDup x y) := by
  refine Runs.of_fd2file h hc fun fd hs => ?_
  obtain ⟨-, hn⟩ := h.opened fd hs
  rcases fdArrayAlloc_run (x := y) h with ⟨e, he⟩ | ⟨fd2, hs2, hok⟩
  · exact .inl ⟨e, Proc.bind_err he⟩
  · refine .inr ?_
    obtain ⟨n, hnode⟩ := Option.ne_none_iff_exists'.mp hn
    have hne : fd ≠ fd2 := fun heq => by simp [heq, hs2] at hs
    have hother : (t.put fd2 { t.file fd2 with status := .init, node := none }
        [.status fd2 .none .init (t.file fd2).node]).file fd = t.file fd := Function.update_of_ne hne _ _
    unfold Runs
    rw [Proc.bind_ok hok, Proc.bind_ok (fdArrayDup_run (by rw [put_file]) (by rw [hother]; exact hs) (by rw [hother]; exact hn)),
      hother, put_file, put_put, hnode]
    exact ⟨_, _, rfl, .move (.dup hc hs2)⟩

theorem runs_freed {ret : Except Int Int} (h : Ready t (.freeing fd op ret)) :
    Runs t (.freeing fd op ret) (do
      setStatus fd .none
      pure (.done op ret)) := by
  have hs := h.frees fd rfl
  refine .move (setStatus_bind _ t) ?_
  rw [hs]
  exact .freed hs

theorem runs_start {a : Act} {m : TableM Call} (h : Ready t c) (hc : c.Out) (hm : start a = some m) : Runs t c m := by
  unfold start at hm
  split at hm
  · exact Option.some.inj hm ▸ runs_fileOpen h hc
  · exact Option.some.inj hm ▸ runs_fileClose h hc
  · exact Option.some.inj hm ▸ runs_fileDup h hc
  · exact Option.some.inj hm ▸ runs_fileSeek h hc
  · exact Option.some.inj hm ▸ runs_fileTransfer h hc
  · exact Option.some.inj hm ▸ runs_fileTransfer h hc
  · exact nomatch hm

/-- **What a process does next, it can do**: no assertion fails, and its effect is a move. -/
theorem code_run {a : Act} {m : TableM Call} (h : Ready t c) (hm : code c a = some m) : Runs t c m := by
  unfold code at hm
  split at hm
  · exact Option.some.inj hm ▸ runs_fileOpenNode h rfl
  · exact Option.some.inj hm ▸ runs_fileOpenStat h rfl
  · next fd node ret =>
    obtain ⟨hs, hcount⟩ := h.opens fd rfl
    exact Option.some.inj hm ▸ .move (fdArrayFree_init hs hcount) (.failed rfl hs)
  · exact Option.some.inj hm ▸ runs_fileTransferred h
  · exact Option.some.inj hm ▸ runs_fileSeekStat h
  · exact Option.some.inj hm ▸ runs_fileSought h
  · exact Option.some.inj hm ▸ runs_freed h
  · exact runs_start h trivial hm
  · exact runs_start h trivial hm
  · exact nomatch hm

end Functions

end Ucore.FdTable
