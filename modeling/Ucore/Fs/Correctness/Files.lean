import Ucore.Fs.Files
import Ucore.Fs.Vfs.Correctness.OpenFile

/-!
# `Fs.Correctness.Files` — what the functions of `file.c` do to the table

A function touches the slot it is called for, and no other (`SameFile`). Reading and seeking move its position; between their
calls the slot is counted once more, and it is not freed when the count goes back (`Traffic`). Opening takes a free slot, and
`files_closeall` leaves nothing open behind the first two.
-/

namespace Ucore.Vfs

variable {α : Type} {s t u : FilesSys} {fd j : Nat} {ops : NodeOps}

namespace FilesSys

@[simp] theorem file_setFile_self (s : FilesSys) (fd : Nat) (f : FdFile) : (s.setFile fd f).file fd = f :=
  Function.update_self ..

theorem file_setFile_of_ne (h : j ≠ fd) (f : FdFile) : (s.setFile fd f).file j = s.file j := Function.update_of_ne h ..

@[simp] theorem setFile_setFile (s : FilesSys) (fd : Nat) (f g : FdFile) : (s.setFile fd f).setFile fd g = s.setFile fd g := by
  simp [setFile]

@[simp] theorem fs_setFile (s : FilesSys) (fd : Nat) (f : FdFile) : (s.setFile fd f).fs = s.fs := rfl

end FilesSys

/-! ## Other slots -/

/-- The slot `j` is as it was. -/
def SameFile (j : Nat) (s t : FilesSys) : Prop := t.file j = s.file j

instance : Std.Refl (SameFile j) := ⟨fun _ => rfl⟩
instance : IsTrans FilesSys (SameFile j) := ⟨fun _ _ _ h1 h2 => Eq.trans h2 h1⟩

theorem sameFile_setFile (h : j ≠ fd) (f : FdFile) : Keeps (SameFile j) (setFile fd f) :=
  .of_modify fun _ => FilesSys.file_setFile_of_ne h f

theorem sameFile_getFile (fd : Nat) : Keeps (SameFile j) (getFile fd) := .bind .of_get fun _ => .of_pure _

/-- The inodes know nothing of the table. -/
theorem sameFile_inVfs (x : VfsM α) : Keeps (SameFile j) (inVfs x) := by
  intro s
  unfold inVfs Proc.zoom
  cases x s.fs with
  | ok a fs => exact refl_of (SameFile j) s
  | err e fs => exact refl_of (SameFile j) s
  | panic p => trivial

theorem sameFile_fdArrayFree (h : j ≠ fd) : Keeps (SameFile j) (fdArrayFree fd) := by
  refine .bind (sameFile_getFile fd) fun file => .bind (.of_check _ _) fun _ => .bind (.of_check _ _) fun _ => ?_
  split
  · refine .bind ?_ fun _ => sameFile_setFile h _
    cases file.node with
    | none => exact .of_stop _
    | some n => exact sameFile_inVfs _
  · exact sameFile_setFile h _

theorem sameFile_fdArrayClose (h : j ≠ fd) : Keeps (SameFile j) (fdArrayClose fd) := by
  refine .bind (sameFile_getFile fd) fun file => .bind (.of_check _ _) fun _ => .bind (.of_check _ _) fun _ => ?_
  refine .bind (sameFile_setFile h _) fun _ => ?_
  split
  · exact sameFile_fdArrayFree h
  · exact .of_pure ()

/-! ## `files_closeall` -/

/-- What is freed is free. -/
theorem fdArrayFree_ok (h : fdArrayFree fd s = .ok () t) : (t.file fd).status = .none := by
  obtain ⟨file, s₁, -, h⟩ := Proc.bind_eq_ok.mp h
  obtain ⟨-, s₂, -, h⟩ := Proc.bind_eq_ok.mp h
  obtain ⟨-, s₃, -, h⟩ := Proc.bind_eq_ok.mp h
  split at h
  · obtain ⟨-, s₄, -, h⟩ := Proc.bind_eq_ok.mp h
    cases h
    simp
  · cases h
    simp

/-- What is closed is not open, whoever else still holds it. -/
theorem fdArrayClose_ok (h : fdArrayClose fd s = .ok () t) : (t.file fd).status ≠ .opened := by
  obtain ⟨file, s₁, -, h⟩ := Proc.bind_eq_ok.mp h
  obtain ⟨-, s₂, -, h⟩ := Proc.bind_eq_ok.mp h
  obtain ⟨-, s₃, -, h⟩ := Proc.bind_eq_ok.mp h
  obtain ⟨_, s₄, hset, h⟩ := Proc.bind_eq_ok.mp h
  cases hset
  split at h
  · rw [fdArrayFree_ok h]
    decide
  · cases h
    simp

theorem sameFile_filesCloseallFrom (n : Nat) : ∀ fd, j < fd → Keeps (SameFile j) (filesCloseallFrom n fd) := by
  induction n with
  | zero => exact fun _ _ => .of_pure ()
  | succ n ih =>
    intro fd hj
    refine .bind (sameFile_getFile fd) fun file => ?_
    split
    · exact .bind (sameFile_fdArrayClose (Nat.ne_of_lt hj)) fun _ => ih (fd + 1) (Nat.lt_succ_of_lt hj)
    · exact ih (fd + 1) (Nat.lt_succ_of_lt hj)

theorem filesCloseallFrom_ok (n : Nat) : ∀ fd s, filesCloseallFrom n fd s = .ok () t →
    ∀ j, fd ≤ j → j < fd + n → (t.file j).status ≠ .opened := by
  induction n with
  | zero =>
    intro fd s _ j hle hlt
    omega
  | succ n ih =>
    intro fd s h j hle hlt
    obtain ⟨file, s₁, hget, h⟩ := Proc.bind_eq_ok.mp h
    cases hget
    -- the slot itself, which the rest of the loop leaves alone
    have hself : ∀ s₂, filesCloseallFrom n (fd + 1) s₂ = .ok () t → (s₂.file fd).status ≠ .opened →
        (t.file j).status ≠ .opened := by
      intro s₂ hrest hfd
      rcases Nat.eq_or_lt_of_le hle with rfl | hgt
      · have hsame : t.file fd = s₂.file fd := (sameFile_filesCloseallFrom n (fd + 1) (Nat.lt_succ_self fd)).ok hrest
        rw [hsame]
        exact hfd
      · exact ih (fd + 1) s₂ hrest j hgt (by omega)
    split at h
    · obtain ⟨_, s₂, hclose, h⟩ := Proc.bind_eq_ok.mp h
      exact hself s₂ h (fdArrayClose_ok hclose)
    · next hst => exact hself s h hst

/-- **`files_closeall`** keeps the first two slots, and none behind them is open. -/
theorem filesCloseall_ok (h : filesCloseall s = .ok () t) : (∀ j, j < 2 → t.file j = s.file j) ∧
    ∀ j, 2 ≤ j → j < filesStructNentry → (t.file j).status ≠ .opened := by
  obtain ⟨_, s₁, hget, hloop⟩ := Proc.bind_eq_ok.mp h
  obtain ⟨_, s₂, hs, hcheck⟩ := Proc.bind_eq_ok.mp hget
  cases hs
  obtain ⟨-, rfl⟩ := Proc.check_eq_ok.mp hcheck
  refine ⟨fun j hj => (sameFile_filesCloseallFrom _ 2 hj).ok hloop, fun j h2 hlt => ?_⟩
  have hsum : 2 + (filesStructNentry - 2) = filesStructNentry := rfl
  exact filesCloseallFrom_ok _ 2 _ hloop j h2 (hsum ▸ hlt)

/-! ## Opening -/

theorem fdArrayAlloc_ok (h : fdArrayAlloc s = .ok fd t) : fd < filesStructNentry ∧ (s.file fd).status = .none ∧
    (s.file fd).openCount = 0 ∧ t = s.setFile fd { s.file fd with status := .init, node := none } := by
  obtain ⟨_, s₁, hget, hfind⟩ := Proc.bind_eq_ok.mp h
  obtain ⟨_, s₂, hs, hcheck⟩ := Proc.bind_eq_ok.mp hget
  cases hs
  obtain ⟨-, rfl⟩ := Proc.check_eq_ok.mp hcheck
  rw [Proc.get_bind] at hfind
  generalize hsome : List.find? _ _ = found at hfind
  cases found with
  | none => cases hfind
  | some fd' =>
    obtain ⟨_, s₂, hcount, hset⟩ := Proc.bind_eq_ok.mp hfind
    obtain ⟨hcount, rfl⟩ := Proc.check_eq_ok.mp hcount
    cases hset
    have hst : (s₂.file fd).status = .none := by simpa using List.find?_some hsome
    exact ⟨List.mem_range.mp (List.mem_of_find?_eq_some hsome), hst, hcount, rfl⟩

/-- A slot has been opened. -/
structure Opens (s : FilesSys) (fd : Nat) (t : FilesSys) : Prop where
  lt : fd < filesStructNentry
  free : (s.file fd).status = .none
  opened : (t.file fd).status = .opened
  node : (t.file fd).node ≠ none
  openCount : (t.file fd).openCount = 1
  other : ∀ j, j ≠ fd → t.file j = s.file j

/-- **`file_open`** takes a free slot. -/
theorem fileOpen_ok {path : List UInt8} {flags : Nat} (h : fileOpen path flags s = .ok fd t) : Opens s fd t := by
  unfold fileOpen at h
  generalize oAccmode flags = mode at h
  cases mode with
  | none => cases h
  | some mode =>
    obtain ⟨fd', s₁, halloc, h₁⟩ := Proc.bind_eq_ok.mp h
    obtain ⟨hlt, hfree, hzero, rfl⟩ := fdArrayAlloc_ok halloc
    rw [Proc.get_bind] at h₁
    obtain ⟨n, s₂, hopen, h₂⟩ := Proc.bind_eq_ok.mp h₁
    have hsame₂ : ∀ j, s₂.file j = (s.setFile fd' { s.file fd' with status := .init, node := none }).file j := fun j =>
      (sameFile_inVfs (j := j) _).ok (Proc.onErr_eq_ok.mp hopen)
    obtain ⟨pos, s₃, hpos, h₃⟩ := Proc.bind_eq_ok.mp h₂
    have hsame₃ : ∀ j, s₃.file j = s₂.file j := by
      intro j
      unfold openPos at hpos
      split at hpos
      · obtain ⟨size, s₄, hsize, hret⟩ := Proc.bind_eq_ok.mp hpos
        cases hret
        exact (sameFile_inVfs (j := j) _).ok (Proc.onErr_eq_ok.mp hsize)
      · cases hpos
        rfl
    obtain ⟨file, s₄, hget, h₄⟩ := Proc.bind_eq_ok.mp h₃
    cases hget
    obtain ⟨_, s₅, hset, h₅⟩ := Proc.bind_eq_ok.mp h₄
    cases hset
    obtain ⟨_, s₆, hfd, hret⟩ := Proc.bind_eq_ok.mp h₅
    cases hret
    obtain ⟨file, s₇, hget, h₇⟩ := Proc.bind_eq_ok.mp hfd
    cases hget
    obtain ⟨_, s₈, hcheck, hset⟩ := Proc.bind_eq_ok.mp h₇
    obtain ⟨-, rfl⟩ := Proc.check_eq_ok.mp hcheck
    cases hset
    refine ⟨hlt, hfree, by simp, by simp, ?_, fun j hj => ?_⟩
    · simp [hsame₃, hsame₂, hzero]
    · rw [FilesSys.file_setFile_of_ne hj, FilesSys.file_setFile_of_ne hj, hsame₃, hsame₂, FilesSys.file_setFile_of_ne hj]

/-! ## Reading and seeking -/

/-- The position of a slot is moved, and it is counted `k` times more; nobody else's count moves, and no inode's. -/
structure Moved (fd : Nat) (k : Int) (s t : FilesSys) : Prop where
  file : ∃ pos, t.file fd = { s.file fd with pos := pos, openCount := (s.file fd).openCount + k }
  other : ∀ j, j ≠ fd → t.file j = s.file j
  refs : t.fs.refCount = s.fs.refCount
  opens : t.fs.openCount = s.fs.openCount

namespace Moved

variable {k l : Int}

theorem refl (fd : Nat) (s : FilesSys) : Moved fd 0 s s := ⟨⟨(s.file fd).pos, by simp⟩, fun _ _ => rfl, rfl, rfl⟩

theorem trans (h : Moved fd k s t) (h' : Moved fd l t u) : Moved fd (k + l) s u := by
  refine ⟨?_, fun j hj => (h'.other j hj).trans (h.other j hj), h'.refs.trans h.refs, h'.opens.trans h.opens⟩
  obtain ⟨pos, hpos⟩ := h.file
  obtain ⟨pos', hpos'⟩ := h'.file
  refine ⟨pos', ?_⟩
  rw [hpos', hpos]
  simp [Int.add_assoc]

theorem status (h : Moved fd k s t) : (t.file fd).status = (s.file fd).status := by
  obtain ⟨pos, hpos⟩ := h.file
  rw [hpos]

/-- A step that writes the slot. -/
theorem of_setFile (s : FilesSys) (fd : Nat) (pos : Int) (k : Int) :
    Moved fd k s (s.setFile fd { s.file fd with pos := pos, openCount := (s.file fd).openCount + k }) :=
  ⟨⟨pos, by simp⟩, fun j hj => FilesSys.file_setFile_of_ne hj _, rfl, rfl⟩

end Moved

/-- What reading and seeking through a descriptor does. -/
abbrev Traffic (fd : Nat) : FilesSys → FilesSys → Prop := Moved fd 0

instance : Std.Refl (Traffic fd) := ⟨Moved.refl fd⟩
instance : IsTrans FilesSys (Traffic fd) := ⟨fun _ _ _ h h' => h.trans h'⟩

theorem traffic_inVfs {x : VfsM α} (h : Keeps (fun s t => t.refCount = s.refCount ∧ t.openCount = s.openCount) x) :
    Keeps (Traffic fd) (inVfs x) := by
  refine .zoom h fun s t hst => ?_
  exact ⟨⟨(s.file fd).pos, by simp [FilesSys.file]⟩, fun _ _ => rfl, hst.1, hst.2⟩

theorem traffic_vopNode (node : Option Node) (op : State → Node → α × (Nat → Option DiskNode) × List Bool) :
    Keeps (Traffic fd) (vopNode node op) := by
  cases node with
  | none => exact .of_stop _
  | some n =>
    have hvop : Keeps (fun s t : State => t.refCount = s.refCount ∧ t.openCount = s.openCount) (vop notDir n) := by
      intro s
      rcases vop_cases notDir n s with ⟨h, -⟩ | ⟨p, h⟩
      · rw [h]
        exact ⟨rfl, rfl⟩
      · rw [h]
        trivial
    refine .bind (traffic_inVfs hvop) fun _ s => ?_
    exact ⟨⟨(s.file fd).pos, by simp [FilesSys.file]⟩, fun _ _ => rfl, rfl, rfl⟩

theorem traffic_fd2file (fd' : Nat) : Keeps (Traffic fd) (fd2file fd') := by
  unfold fd2file
  split
  · refine .bind (.bind .of_get fun _ => .of_check _ _) fun _ => .bind (.bind .of_get fun _ => .of_pure _) fun file => ?_
    split
    · exact .of_pure _
    · exact .of_fail _
  · exact .of_fail _

theorem getFile_bind (fd : Nat) (f : FdFile → FilesM α) (s : FilesSys) : (getFile fd >>= f) s = f (s.file fd) s := rfl

/-- The count goes up, for an open slot. -/
theorem fdArrayAcquire_cases (fd : Nat) (s : FilesSys) :
    (∃ t, fdArrayAcquire fd s = .ok () t ∧ (s.file fd).status = .opened ∧ Moved fd 1 s t) ∨
      ∃ p, fdArrayAcquire fd s = .panic p := by
  rw [fdArrayAcquire, getFile_bind]
  by_cases hst : (s.file fd).status = .opened
  · rw [Proc.check_bind_pos hst]
    exact .inl ⟨_, rfl, hst, Moved.of_setFile s fd (s.file fd).pos 1⟩
  · exact .inr ⟨_, Proc.check_bind_neg hst ..⟩

/-- The count goes down. It does not reach zero, for a slot that is open cannot be freed. -/
theorem fdArrayRelease_cases (hst : (s.file fd).status = .opened) :
    (∃ t, fdArrayRelease fd s = .ok () t ∧ Moved fd (-1) s t) ∨ ∃ p, fdArrayRelease fd s = .panic p := by
  rw [fdArrayRelease, getFile_bind, Proc.check_bind_pos (.inl hst)]
  by_cases hpos : 0 < (s.file fd).openCount
  · rw [Proc.check_bind_pos hpos, setFile, Proc.modify_bind]
    split
    · rw [fdArrayFree, getFile_bind, FilesSys.file_setFile_self]
      exact .inr ⟨_, Proc.check_bind_neg (by simp [hst]) ..⟩
    · exact .inl ⟨_, rfl, Moved.of_setFile s fd (s.file fd).pos (-1)⟩
  · exact .inr ⟨_, Proc.check_bind_neg hpos ..⟩

/-- What is done between acquiring and releasing a descriptor moves its position only. -/
theorem traffic_held {β : Type} {m : FilesM α} {f : α → FilesM β} (hm : Keeps (Traffic fd) m)
    (hf : ∀ a, Keeps (fun s t => (s.file fd).status = .opened → Moved fd (-1) s t) (f a))
    (herr : ∀ s e t, m s ≠ .err e t) : Keeps (Traffic fd) (fdArrayAcquire fd >>= fun _ => m >>= f) := by
  intro s
  rcases fdArrayAcquire_cases fd s with ⟨t, hrun, hst, hacq⟩ | ⟨p, hrun⟩
  · rw [Proc.bind_ok hrun]
    cases hmt : m t with
    | ok a u =>
      have hop := hacq.trans (hm.ok hmt)
      have hst' : (u.file fd).status = .opened := by rw [hop.status, hst]
      have hrel := hf a u
      rw [Proc.bind_ok hmt]
      exact hrel.imp fun v hv => hop.trans (hv hst')
    | err e u => exact absurd hmt (herr t e u)
    | panic p =>
      rw [Proc.bind_panic hmt]
      trivial
  · rw [Proc.bind_panic hrun]
    trivial

theorem vopNode_ne_err (node : Option Node) (op : State → Node → α × (Nat → Option DiskNode) × List Bool) (s : FilesSys)
    (e : Int) (t : FilesSys) : vopNode node op s ≠ .err e t := by
  intro h
  cases node with
  | none => cases h
  | some n =>
    rcases Proc.bind_eq_err.mp h with hvop | ⟨_, s₁, -, hput⟩
    · unfold inVfs Proc.zoom at hvop
      rcases vop_cases notDir n s.fs with ⟨h', -⟩ | ⟨p, h'⟩ <;> rw [h'] at hvop <;> cases hvop
    · cases hput

/-- The release, behind a step that moves the position. -/
theorem released {m : FilesM Unit} {f : Unit → FilesM α} (hm : ∀ s, ∃ t, m s = .ok () t ∧ Moved fd 0 s t)
    (hf : ∀ u s, (f u s).Leaves (Moved fd 0 s)) :
    Keeps (fun s t => (s.file fd).status = .opened → Moved fd (-1) s t) (m >>= fun _ => fdArrayRelease fd >>= f) := by
  intro s
  obtain ⟨t, hrun, hmoved⟩ := hm s
  rw [Proc.bind_ok hrun]
  by_cases hst : (s.file fd).status = .opened
  · rcases fdArrayRelease_cases (hmoved.status.trans hst) with ⟨u, hrel, hdown⟩ | ⟨p, hrel⟩
    · rw [Proc.bind_ok hrel]
      exact (hf () u).imp fun v hv _ => (hmoved.trans hdown).trans hv
    · rw [Proc.bind_panic hrel]
      trivial
  · cases (fdArrayRelease fd >>= f) t with
    | ok a u => exact fun h => absurd h hst
    | err e u => exact fun h => absurd h hst
    | panic p => trivial

/-- A step that writes a position, or nothing -/
theorem moved_setPos (fd : Nat) (c : FdFile → Prop) [DecidablePred c] (pos : FdFile → Int) (s : FilesSys) :
    ∃ t, (getFile fd >>= fun file => if c file then setFile fd { file with pos := pos file } else pure ()) s = .ok () t ∧
      Moved fd 0 s t := by
  rw [getFile_bind]
  split
  · have hmoved := Moved.of_setFile s fd (pos (s.file fd)) 0
    rw [Int.add_zero] at hmoved
    exact ⟨_, rfl, hmoved⟩
  · exact ⟨s, rfl, .refl fd s⟩

theorem traffic_fileRead (ops : NodeOps) (fd len : Nat) : Keeps (Traffic fd) (fileRead ops fd len) := by
  refine .bind (.attempt (traffic_fd2file fd)) fun file => ?_
  cases file with
  | error e => exact .of_pure _
  | ok file =>
    dsimp only
    split
    · exact .of_pure _
    · refine traffic_held (traffic_vopNode _ _) (fun r => ?_) (vopNode_ne_err _ _)
      exact released (moved_setPos fd (·.status = .opened) (·.pos + r.used)) fun _ s => .refl fd s

theorem traffic_fileSeek (ops : NodeOps) (fd : Nat) (pos : Int) : Keeps (Traffic fd) (fileSeek ops fd pos) := by
  refine .bind (traffic_fd2file fd) fun file => ?_
  refine traffic_held (traffic_vopNode _ _) (fun ret => ?_) (vopNode_ne_err _ _)
  refine released (moved_setPos fd (fun _ => ret = 0) fun _ => pos) fun _ s => ?_
  split
  · exact Moved.refl fd s
  · exact Moved.refl fd s

theorem traffic_sysfileReadLoop (ops : NodeOps) (fd fuel : Nat) :
    ∀ len copied base, Keeps (Traffic fd) (sysfileReadLoop ops fd fuel len copied base) := by
  induction fuel with
  | zero => exact fun _ _ _ => .of_stop _
  | succ fuel ih =>
    intro len copied base
    unfold sysfileReadLoop
    split
    · refine .bind (traffic_fileRead ops fd _) fun r => .bind (.of_check _ _) fun _ => ?_
      dsimp only
      split
      · exact .of_pure _
      · exact ih _ _ _
    · exact .of_pure _

theorem traffic_sysfileRead (ops : NodeOps) (fd len : Nat) : Keeps (Traffic fd) (sysfileRead ops fd len) := by
  have htest : Keeps (Traffic fd) (fileTestfd fd true false) := by
    refine .bind (.attempt (traffic_fd2file fd)) fun file => ?_
    cases file with
    | error e => exact .of_pure _
    | ok file =>
      dsimp only
      split
      · exact .of_pure _
      · split <;> exact .of_pure _
  have halloc : Keeps (fun s t : State => t.refCount = s.refCount ∧ t.openCount = s.openCount) kmalloc := by
    intro s
    rw [kmalloc, mayFail, Proc.get_bind]
    cases s.faults with
    | nil => exact ⟨rfl, rfl⟩
    | cons b rest =>
      simp only [Proc.put_bind]
      split
      · exact ⟨rfl, rfl⟩
      · exact ⟨rfl, rfl⟩
  unfold sysfileRead
  split
  · exact .of_pure _
  · refine .bind htest fun ok => ?_
    split
    · exact .of_fail _
    · refine .bind (traffic_inVfs halloc) fun _ => .bind (traffic_sysfileReadLoop ops fd _ _ _ _) fun r => .of_pure _

end Ucore.Vfs
