import Ucore.Fs.Vfs.Correctness.Resolve

/-!
# `Fs.Vfs.Correctness.OpenFile` — what `vfs_open` does to the files

Opening looks the path up, asks the inode, and truncates it for `O_CREAT` as well as for `O_TRUNC`. The check of the access
mode guards only `O_TRUNC`, so a file that is there loses what it holds whenever it is opened with `O_CREAT`, also for
reading. Everything else that `vfs_open` calls leaves the disk alone (`SameDisk`).
-/

namespace Ucore.Vfs

variable {α : Type} {s t : State} {n : Node} {f : List Bool} {e : Int} {cwd : Option Node} {path : List UInt8} {flags : Nat}

/-- A file system in use by a process with the working directory `cwd`. -/
structure Running (s : State) (cwd : Option Node) : Prop where
  image : Image s
  refs : Refs s
  held : Held s cwd

theorem Running.after (h : Running s cwd) (f : List Bool) : Running (s.after f) cwd :=
  ⟨⟨h.image.root, h.image.typed, h.image.entry, h.image.named⟩,
    ⟨h.refs.opened, h.refs.loaded, h.refs.device, h.refs.boot, h.refs.root⟩, h.held⟩

/-! ## The lookup of an open -/

/-- Whatever fails on the way, a failed lookup leaves the counts and the disk as they were. -/
theorem vfsLookup_err (h : Running s cwd) (hr : vfsLookup cwd path s = .err e t) :
    ∃ f, t = s.after f ∧ (s.resolve cwd path = .err e () ∨ e = -eNoMem ∨ e = -eInval) := by
  obtain ⟨f, -, ho | ⟨-, e', he', ho⟩⟩ := @vfsLookup_run s cwd path h.image h.refs h.held
  · rw [hr] at ho
    refine ⟨f, ?_⟩
    cases hres : s.resolve cwd path with
    | ok n u =>
      rw [hres] at ho
      exact nomatch ho
    | err e' u =>
      rw [hres] at ho
      cases ho
      exact ⟨rfl, .inl rfl⟩
    | panic p =>
      rw [hres] at ho
      exact nomatch ho
  · rw [hr] at ho
    cases ho
    exact ⟨f, rfl, .inr he'⟩

/-- The inode that a lookup returns is the one the path resolves to, with one more reference. -/
theorem vfsLookup_ok (h : Running s cwd) (hr : vfsLookup cwd path s = .ok n t) :
    s.resolve cwd path = .ok n () ∧ ∃ f, t = (s.addRef n 1).after f := by
  obtain ⟨f, -, ho | ⟨-, e', -, ho⟩⟩ := @vfsLookup_run s cwd path h.image h.refs h.held
  · rw [hr] at ho
    cases hres : s.resolve cwd path with
    | ok n u =>
      rw [hres] at ho
      cases ho
      exact ⟨rfl, f, rfl⟩
    | err e' u =>
      rw [hres] at ho
      exact nomatch ho
    | panic p =>
      rw [hres] at ho
      exact nomatch ho
  · rw [hr] at ho
    exact nomatch ho

/-- With nothing that fails, the lookup answers what the path resolves to. -/
theorem vfsLookup_clean (h : Running s cwd) :
    vfsLookup cwd path (s.after []) = (s.after []).answer (s.resolve cwd path) := by
  have h' := h.after []
  obtain ⟨f, hf, ho⟩ := (@vfsLookup_run (s.after []) cwd path h'.image h'.refs h'.held).eq List.not_mem_nil
  obtain rfl : f = [] := List.subset_nil.mp hf
  exact ho

/-- The flags that `vfs_open` takes: an access mode, and one for writing if the file is to be truncated. -/
def FlagsOk (flags : Nat) : Prop := ∃ r w, oAccmode flags = some (r, w) ∧ (oTrunc flags = true → w = true)

theorem vfsOpen_bad (h : ¬ FlagsOk flags) : vfsOpen cwd path flags s = .err (-eInval) s := by
  unfold vfsOpen
  cases hm : oAccmode flags with
  | none => rfl
  | some rw' =>
    obtain ⟨r, w⟩ := rw'
    have hbad : oTrunc flags = true ∧ w = false := by
      refine ⟨?_, ?_⟩
      · by_contra ht
        exact h ⟨r, w, hm, fun ht' => absurd ht' ht⟩
      · cases w with
        | false => rfl
        | true => exact absurd ⟨r, true, hm, fun _ => rfl⟩ h
    show (if oTrunc flags = true ∧ w = false then Proc.fail (-eInval) else _ : VfsM Node) s = _
    rw [if_pos hbad]
    rfl

/-- `vfs_open` of flags that it takes, after its lookup. -/
theorem vfsOpen_run (h : FlagsOk flags) :
    vfsOpen cwd path flags s = match vfsLookup cwd path s with
      | .err e t =>
        if e = -16 ∧ oCreat flags = true then (vfsLookupParent cwd (cutPath path) >>= fun _ => Proc.stop .vopNull) t
        else .err e t
      | .ok n t  => if oExcl flags = true ∧ oCreat flags = true then .err (-eExists) t else openNode n flags t
      | .panic p => .panic p := by
  obtain ⟨r, w, hm, hw⟩ := h
  have hok : ¬ (oTrunc flags = true ∧ w = false) := by
    rintro ⟨ht, hf⟩
    rw [hw ht] at hf
    exact nomatch hf
  unfold vfsOpen
  simp only [hm]
  rw [if_neg hok]
  cases hl : vfsLookup cwd path s with
  | ok n t =>
    rw [Proc.bind_ok (Proc.attempt_ok hl)]
    simp only
    split <;> rfl
  | err e t =>
    rw [Proc.bind_ok (Proc.attempt_err hl)]
    simp only
    split <;> rfl
  | panic p => rw [Proc.bind_panic (Proc.attempt_panic hl)]

/-! ## What leaves the disk alone -/

/-- Nothing on the disk has changed. -/
def SameDisk (s t : State) : Prop := t.disk = s.disk

instance : Std.Refl SameDisk := ⟨fun _ => rfl⟩
instance : IsTrans State SameDisk := ⟨fun _ _ _ h1 h2 => Eq.trans h2 h1⟩

/-- An operation is called on the state as it is, or the machine stops. -/
theorem vop_cases (has : State → Node → Bool) (n : Node) (s : State) :
    (vop has n s = .ok () s ∧ has s n = true ∧ s.refCount n < maxInodeCount) ∨ ∃ p, vop has n s = .panic p := by
  unfold vop
  rw [Proc.get_bind]
  by_cases hh : has s n = true
  · rw [Proc.check_bind_pos hh]
    by_cases hc : s.openCount n ≤ s.refCount n ∧ 0 ≤ s.openCount n ∧ s.refCount n < maxInodeCount ∧
        s.openCount n < maxInodeCount
    · exact .inl ⟨Proc.check_run_pos hc s, hh, hc.2.2.1⟩
    · exact .inr ⟨_, Proc.check_run_neg hc s⟩
  · exact .inr ⟨_, Proc.check_bind_neg hh ..⟩

theorem vop_ok {has : State → Node → Bool} (hh : has s n = true) (h0 : 0 ≤ s.openCount n)
    (hle : s.openCount n ≤ s.refCount n) (hroom : s.refCount n < maxInodeCount) : vop has n s = .ok () s := by
  unfold vop
  rw [Proc.get_bind, Proc.check_bind_pos hh, Proc.check_run_pos ⟨hle, h0, hroom, by omega⟩]

theorem vop_sameDisk (has : State → Node → Bool) (n : Node) : Keeps SameDisk (vop has n) := by
  intro s
  rcases vop_cases has n s with ⟨h, -⟩ | ⟨p, h⟩
  · rw [h]
    exact refl_of SameDisk s
  · rw [h]
    trivial

theorem vopRefDec_sameDisk (n : Node) : Keeps SameDisk (vopRefDec n) := by
  refine .bind .of_get fun s => .bind (.of_check _ _) fun _ => .bind (.of_modify fun _ => rfl) fun _ => ?_
  split
  · exact vop_sameDisk _ _
  · exact .of_pure ()

theorem vopOpenDec_sameDisk (n : Node) : Keeps SameDisk (vopOpenDec n) := by
  refine .bind .of_get fun s => .bind (.of_check _ _) fun _ => .bind (.of_modify fun _ => rfl) fun _ => ?_
  split
  · exact vop_sameDisk _ _
  · exact .of_pure ()

/-- `vop_open` only looks: it answers in the state that it is called in. -/
theorem vopOpen_cases (n : Node) (flags : Nat) (s : State) :
    vopOpen n flags s = .ok () s ∧ s.refCount n < maxInodeCount ∨ (∃ e, vopOpen n flags s = .err e s) ∨
      ∃ p, vopOpen n flags s = .panic p := by
  unfold vopOpen
  rcases vop_cases anyNode n s with ⟨h, -, hroom⟩ | ⟨p, h⟩
  · rw [Proc.bind_ok h, Proc.get_bind]
    cases n with
    | dev i =>
      simp only
      split
      · exact .inr (.inl ⟨_, rfl⟩)
      · cases s.devs[i]? with
        | none => exact .inl ⟨rfl, hroom⟩
        | some v =>
          simp only
          split
          · exact .inr (.inl ⟨_, rfl⟩)
          · exact .inl ⟨rfl, hroom⟩
    | sfs ino =>
      simp only
      split
      · exact .inr (.inl ⟨_, rfl⟩)
      · exact .inl ⟨rfl, hroom⟩
  · exact .inr (.inr ⟨p, Proc.bind_panic h⟩)

/-- A regular file opens with any flags. -/
theorem vopOpen_file {ino : Nat} {d : DiskNode} (hd : s.disk ino = some d) (ht : d.type = sfsTypeFile)
    (h0 : 0 ≤ s.openCount (.sfs ino)) (hle : s.openCount (.sfs ino) ≤ s.refCount (.sfs ino))
    (hroom : s.refCount (.sfs ino) < maxInodeCount) : vopOpen (.sfs ino) flags s = .ok () s := by
  have hdir : s.isDir (.sfs ino) = false := by
    rw [State.isDir, State.isType_of_disk hd, ht]
    rfl
  unfold vopOpen
  rw [Proc.bind_ok (vop_ok rfl h0 hle hroom), Proc.get_bind]
  simp only [hdir, Bool.false_eq_true, false_and, if_false, Proc.pure_run]

/-- A regular file with something in it. -/
def Filled (s : State) (n : Node) : Prop := ∃ ino d, n = .sfs ino ∧ s.disk ino = some d ∧ d.type = sfsTypeFile ∧ d.size ≠ 0

theorem vopTruncate_sameDisk (h : ¬ Filled s n) : (vopTruncate n s).Leaves (SameDisk s) := by
  unfold vopTruncate
  rcases vop_cases State.isFile n s with ⟨hv, hf, -⟩ | ⟨p, hv⟩
  · rw [Proc.bind_ok hv]
    cases n with
    | dev i => exact refl_of SameDisk s
    | sfs ino =>
      simp only [sfsTruncfile, Proc.get_bind]
      cases hd : s.disk ino with
      | none => exact refl_of SameDisk s
      | some d =>
        have hsize : d.size = 0 := by
          by_contra hs
          rw [State.isFile, State.isType_of_disk hd] at hf
          exact h ⟨ino, d, rfl, hd, of_decide_eq_true hf, hs⟩
        simp only
        rw [if_pos hsize]
        exact Keeps.of_check _ _ s
  · rw [Proc.bind_panic hv]
    trivial

/-- An open without truncation, or of what has nothing to lose. -/
theorem openNode_sameDisk (h : oTrunc flags = true ∨ oCreat flags = true → ¬ Filled s n) :
    (openNode n flags s).Leaves (SameDisk s) := by
  have hdec (s' : State) (hs' : SameDisk s s') : (vopRefDec n s').Leaves (SameDisk s) :=
    (vopRefDec_sameDisk n s').imp fun _ h => trans_of SameDisk hs' h
  have hopen : (vopOpen n flags s).Leaves (SameDisk s) := by
    rcases vopOpen_cases n flags s with ⟨ho, -⟩ | ⟨e, ho⟩ | ⟨p, ho⟩
    all_goals
      rw [ho]
      first | exact refl_of SameDisk s | trivial
  unfold openNode
  refine (hopen.onErr hdec).bind fun _ s' hs' => ?_
  rw [vopOpenInc, Proc.modify_bind]
  split
  · next htc =>
    have ht : (vopTruncate n (s'.addOpen n 1)).Leaves (SameDisk s) := by
      refine (vopTruncate_sameDisk fun hfill => h htc ?_).imp fun _ h => trans_of SameDisk hs' h
      obtain ⟨ino, d, hn, hd, hfile⟩ := hfill
      exact ⟨ino, d, hn, hs' ▸ hd, hfile⟩
    refine (ht.onErr fun s' hs' => ?_).bind fun _ s' hs' => hs'
    exact ((vopOpenDec_sameDisk n s').imp fun _ h => trans_of SameDisk hs' h).bind fun _ => hdec
  · exact hs'

/-! ## What a truncation takes -/

theorem sfsTruncLoop_clean {ino : Nat} : ∀ {b : Nat} {s : State}, s.faults = [] → ∃ t, sfsTruncLoop ino b s = .ok () t := by
  intro b
  induction b with
  | zero =>
    intro s hs
    exact ⟨s, rfl⟩
  | succ b ih =>
    intro s hs
    have htransfer : transfer s = .ok () s := by
      rw [transfer, mayFail, Proc.get_bind, hs]
      rfl
    unfold sfsTruncLoop
    split
    · rw [Proc.bind_ok htransfer]
      exact ih hs
    · exact ih hs

/-- When nothing fails, a file with something in it ends up empty. -/
theorem vopTruncate_clean {ino : Nat} {d : DiskNode} (hs : s.faults = []) (h0 : 0 ≤ s.openCount (.sfs ino))
    (hle : s.openCount (.sfs ino) ≤ s.refCount (.sfs ino)) (hroom : s.refCount (.sfs ino) < maxInodeCount)
    (hd : s.disk ino = some d) (ht : d.type = sfsTypeFile)
    (hsize : d.size ≠ 0) : ∃ t, vopTruncate (.sfs ino) s = .ok () t ∧ ∀ d', t.disk ino = some d' → d'.size = 0 := by
  have hf : s.isFile (.sfs ino) = true := by
    rw [State.isFile, State.isType_of_disk hd]
    exact decide_eq_true ht
  obtain ⟨t, hl⟩ := @sfsTruncLoop_clean ino d.blocks.length s hs
  refine ⟨{ t with disk := Function.update t.disk ino ((t.disk ino).map fun d => { d with size := 0 }) }, ?_, ?_⟩
  · rw [vopTruncate, Proc.bind_ok (vop_ok hf h0 hle hroom)]
    simp only [sfsTruncfile, Proc.get_bind, hd]
    rw [if_neg hsize, Proc.bind_ok hl]
    rfl
  · intro d' hd'
    simp only [Function.update_self, Option.map_eq_some_iff] at hd'
    obtain ⟨d₀, -, rfl⟩ := hd'
    rfl

/-! ## Opening a file that is there -/

/-- What opening promises: an open for reading changes no file, and neither does an open with `O_CREAT` change the file that
    is there, if it does not ask for truncation. -/
structure KeepsFiles (s : State) (cwd : Option Node) (path : List UInt8) (flags : Nat) (t : State) : Prop where
  readonly : oAccmode flags = some (true, false) → t.disk = s.disk
  created : oCreat flags = true → oTrunc flags = false → ∀ ino, s.resolve cwd path = .ok (.sfs ino) () →
    t.disk ino = s.disk ino

/-- The open truncates the file that is there, without being asked to. -/
structure Truncates (s : State) (cwd : Option Node) (path : List UInt8) (flags : Nat) : Prop where
  mode : oAccmode flags ≠ none
  creat : oCreat flags = true
  excl : oExcl flags = false
  trunc : oTrunc flags = false
  filled : ∃ n, s.resolve cwd path = .ok n () ∧ Filled s n ∧ s.refCount n + 1 < maxInodeCount

theorem KeepsFiles.of_sameDisk (h : SameDisk s t) : KeepsFiles s cwd path flags t :=
  ⟨fun _ => h, fun _ _ ino _ => congrFun h ino⟩

/-- The flags of an open that truncates without being asked to are taken. -/
theorem Truncates.flagsOk (h : Truncates s cwd path flags) : FlagsOk flags := by
  obtain ⟨⟨r, w⟩, hm⟩ := Option.ne_none_iff_exists'.mp h.mode
  refine ⟨r, w, hm, fun ht => ?_⟩
  rw [h.trunc] at ht
  exact nomatch ht

/-- An inode with all the references that it can have stops the machine. -/
theorem openNode_full (h : maxInodeCount ≤ s.refCount n) : ∃ p, openNode n flags s = .panic p := by
  have hv : vop anyNode n s = .panic .inodeCheck := vop_full rfl h
  exact ⟨_, Proc.bind_panic (Proc.onErr_panic (Proc.bind_panic hv))⟩

/-- The create path ends before it reaches an inode. -/
theorem createPath_cases (h : Running s cwd) (path : List UInt8) :
    (∃ e, s.startNode cwd (splitDevice path) = .error e ∧
        ((vfsLookupParent cwd path >>= fun _ => Proc.stop .vopNull : VfsM Node) s) = .err e s) ∨
      (∃ n, s.startNode cwd (splitDevice path) = .ok n) ∧
        ((vfsLookupParent cwd path >>= fun _ => Proc.stop .vopNull : VfsM Node) s) = .panic .vopNull := by
  have hget := @getDevice_run s cwd path h.refs h.held
  cases hstart : s.startNode cwd (splitDevice path) with
  | error e =>
    rw [hstart] at hget
    exact .inl ⟨e, rfl, Proc.bind_err hget⟩
  | ok n =>
    rw [hstart] at hget
    exact .inr ⟨⟨n, rfl⟩, Proc.bind_ok hget⟩

/-- Unless it truncates unasked, an open keeps its promise. -/
theorem vfsOpen_keeps (h : Running s cwd) (ht : ¬ Truncates s cwd path flags) :
    (vfsOpen cwd path flags s).Leaves (KeepsFiles s cwd path flags) := by
  by_cases hok : FlagsOk flags
  · rw [vfsOpen_run hok]
    cases hl : vfsLookup cwd path s with
    | panic p => trivial
    | err e t =>
      obtain ⟨f, rfl, -⟩ := vfsLookup_err h hl
      simp only
      split
      · rcases createPath_cases (h.after f) (cutPath path) with ⟨e', -, hp⟩ | ⟨-, hp⟩
        · rw [hp]
          exact .of_sameDisk rfl
        · rw [hp]
          trivial
      · exact .of_sameDisk rfl
    | ok n t =>
      obtain ⟨hres, f, rfl⟩ := vfsLookup_ok h hl
      simp only
      split
      · exact .of_sameDisk rfl
      · next hexcl =>
        obtain ⟨r, w, hm, hw⟩ := hok
        by_cases htrunc : oTrunc flags = true
        · -- the truncation has been asked for, and the mode is not `O_RDONLY`
          have hkeep (t : State) : KeepsFiles s cwd path flags t := by
            refine ⟨fun hr => ?_, fun _ hf => ?_⟩
            · rw [hm, hw htrunc] at hr
              exact nomatch hr
            · rw [htrunc] at hf
              exact nomatch hf
          cases openNode n flags ((s.addRef n 1).after f) with
          | ok m t => exact hkeep t
          | err e t => exact hkeep t
          | panic p => trivial
        · rw [Bool.not_eq_true] at htrunc
          by_cases hfull : s.refCount n + 1 < maxInodeCount
          · have hsame : (openNode n flags ((s.addRef n 1).after f)).Leaves (SameDisk s) := by
              refine openNode_sameDisk fun htc hfill => ht ?_
              have hc : oCreat flags = true := htc.resolve_left (by simp [htrunc])
              refine ⟨by simp [hm], hc, ?_, htrunc, n, hres, hfill, hfull⟩
              rw [← Bool.not_eq_true]
              exact fun he => hexcl ⟨he, hc⟩
            exact hsame.imp fun _ => .of_sameDisk
          · obtain ⟨p, hp⟩ := @openNode_full ((s.addRef n 1).after f) n flags (by
              rw [State.after_refCount, State.addRef_self]
              omega)
            rw [hp]
            trivial
  · rw [vfsOpen_bad hok]
    exact .of_sameDisk rfl

/-- An open that truncates unasked empties the file, if nothing fails on the way. -/
theorem vfsOpen_truncates (h : Running s cwd) (ht : Truncates s cwd path flags) :
    ¬ (vfsOpen cwd path flags (s.after [])).Leaves (KeepsFiles s cwd path flags) := by
  obtain ⟨n, hres, ⟨ino, d, rfl, hd, hfile, hsize⟩, hroom⟩ := ht.filled
  have hl : vfsLookup cwd path (s.after []) = .ok (.sfs ino) ((s.addRef (.sfs ino) 1).after []) := by
    rw [vfsLookup_clean h, hres]
    rfl
  obtain ⟨h0, hle⟩ := h.refs.opened (.sfs ino)
  have hself : (s.addRef (.sfs ino) 1).refCount (.sfs ino) = s.refCount (.sfs ino) + 1 := State.addRef_self
  have hopen : vopOpen (.sfs ino) flags ((s.addRef (.sfs ino) 1).after []) = .ok () ((s.addRef (.sfs ino) 1).after []) :=
    vopOpen_file (s := (s.addRef (.sfs ino) 1).after []) hd hfile h0 (by simp; omega) (by simp; omega)
  obtain ⟨t, ht', hempty⟩ := vopTruncate_clean (s := ((s.addRef (.sfs ino) 1).after []).addOpen (.sfs ino) 1) rfl
    (by simp; omega) (by simp; omega) (by simp; omega) hd hfile hsize
  rw [vfsOpen_run ht.flagsOk, hl]
  simp only [ht.excl, Bool.false_eq_true, false_and, if_false]
  rw [openNode, Proc.bind_ok (Proc.onErr_ok hopen), vopOpenInc, Proc.modify_bind, if_pos (.inr ht.creat),
    Proc.bind_ok (Proc.onErr_ok ht')]
  intro hkeep
  exact hsize (hempty d ((hkeep.created ht.creat ht.trunc ino hres).trans hd))

/-- Opening changes no file that it has not been asked to truncate, except with `O_CREAT` on a file that is there. -/
theorem vfs_open_keeps_iff (h : Running s cwd) :
    (∀ f, (vfsOpen cwd path flags (s.after f)).Leaves (KeepsFiles s cwd path flags)) ↔ ¬ Truncates s cwd path flags := by
  constructor
  · intro hkeep ht
    exact vfsOpen_truncates h ht (hkeep [])
  · intro ht f
    have ht' : ¬ Truncates (s.after f) cwd path flags := fun h => ht ⟨h.mode, h.creat, h.excl, h.trunc, h.filled⟩
    exact (vfsOpen_keeps (h.after f) ht').imp fun _ hk => ⟨hk.readonly, hk.created⟩

/-- A disk with one file, `f`, of five bytes. -/
def oneFile : State where
  disk ino :=
    if ino = 1 then
      some { type := sfsTypeDir, nlinks := 1, size := 0, blocks := [⟨3, []⟩], entries := [([0x66], 2)] }
    else if ino = 2 then
      some { type := sfsTypeFile, nlinks := 1, size := 5, blocks := [⟨4, [1, 2, 3, 4, 5]⟩], entries := [] }
    else none
  devs := [{ devname := [0x64], mountable := true, mounted := true, dOpen := fun _ => 0 }]
  refCount n := if n = .sfs 1 then 2 else if n = .dev 0 then 1 else 0
  openCount _ := 0
  bootfs := some (.sfs 1)
  faults := []

theorem oneFile_disk {ino : Nat} {d : DiskNode} (h : oneFile.disk ino = some d) :
    ino = 1 ∧ d.type = sfsTypeDir ∧ d.entries = [([0x66], 2)] ∨ ino = 2 ∧ d.type = sfsTypeFile ∧ d.entries = [] := by
  simp only [oneFile] at h
  split at h
  · next h1 =>
    cases h
    exact .inl ⟨h1, rfl, rfl⟩
  · split at h
    · next h2 =>
      cases h
      exact .inr ⟨h2, rfl, rfl⟩
    · exact nomatch h

theorem oneFile_running : Running oneFile (some (.sfs 1)) where
  image := by
    refine ⟨rfl, fun ino d hd => ?_, fun ino d hd e he _ => ?_, fun ino d hd e he _ => ?_⟩
    · rcases oneFile_disk hd with ⟨-, ht, -⟩ | ⟨-, ht, -⟩
      · exact .inl ht
      · exact .inr (.inl ht)
    all_goals
      rcases oneFile_disk hd with ⟨-, -, hent⟩ | ⟨-, -, hent⟩
      · rw [hent] at he
        obtain rfl := List.mem_singleton.mp he
        first
        | exact ⟨_, rfl, by decide⟩
        | decide
      · rw [hent] at he
        exact absurd he List.not_mem_nil
  refs := by
    refine ⟨fun n => ⟨Int.le_refl 0, ?_⟩, fun ino hpos => ?_, fun i hi => ?_, fun n hn => ?_, by decide⟩
    · simp only [oneFile]
      split
      · decide
      · split <;> decide
    · have hino : ino = 1 := by
        by_contra hne
        simp [oneFile, hne] at hpos
      rw [hino]
      rfl
    · obtain rfl : i = 0 := by simpa [oneFile] using hi
      decide
    · exact (Option.some.inj hn).symm
  held n hn := by
    obtain rfl := Option.some.inj hn
    exact ⟨rfl, by decide⟩

/-- A file opened for reading stays as it is, also when the third of the steps that may fail does. -/
theorem vfs_open_keeps_iff_reading : (vfsOpen (some (.sfs 1)) [0x66] 0 (oneFile.after [false, false, true])).Leaves
    (KeepsFiles oneFile (some (.sfs 1)) [0x66] 0) :=
  (vfs_open_keeps_iff oneFile_running).mpr (fun h => absurd h.creat (by decide)) [false, false, true]

/-- `open("f", O_RDONLY | O_CREAT)` empties the file. -/
theorem vfs_open_empties :
    ¬ (vfsOpen (some (.sfs 1)) [0x66] 4 oneFile).Leaves (KeepsFiles oneFile (some (.sfs 1)) [0x66] 4) :=
  vfsOpen_truncates (s := oneFile) oneFile_running
    ⟨by decide, by decide, by decide, by decide, .sfs 2, rfl, ⟨2, _, rfl, rfl, rfl, by decide⟩, by decide⟩

end Ucore.Vfs
