import Mathlib.Data.List.TakeWhile
import Ucore.Fs.Vfs.Correctness.OpenFile

/-!
# `Fs.Vfs.Correctness.CreatePath` — the errors of `vfs_open`, and its second lookup

When the name is not there, `vfs_open` looks for the directory to make it in, with `vfs_lookup_parent` on the same buffer.
Behind a device name the first lookup has put a NUL, so the second one finds a file name in the working directory. Behind the
second lookup there is nothing: no inode has a `vop_create`. And `O_EXCL` forgets the reference to the file that is there.
All the other errors give back what was taken.
-/

namespace Ucore.Vfs

variable {s t : State} {n m : Node} {f : List Bool} {e : Int} {cwd : Option Node} {path : List UInt8} {flags : Nat}

/-! ## The second lookup -/

/-- The second lookup starts where the first one did, with the same rest of the path. -/
def SameStart (s : State) (cwd : Option Node) (path : List UInt8) : Prop :=
  ∀ f t, vfsLookup cwd path (s.after f) = .err (-eNoEnt) t → ∀ start u, getDevice cwd path (s.after f) = .ok start u →
    ∃ u', vfsLookupParent cwd (cutPath path) t = .ok start u'

/-- The path is not found under a device, and the working directory is not the root of that device, or its name is another
    one. -/
def Misled (s : State) (cwd : Option Node) (path : List UInt8) : Prop :=
  ∃ name sub, splitDevice path = .device name sub ∧ s.resolve cwd path = .err (-eNoEnt) () ∧
    ∀ n, s.deviceRoot name = .ok n → cwd ≠ some n ∨ sub ≠ name

theorem devicePart_idem (path : List UInt8) : devicePart (devicePart path) = devicePart path := List.takeWhile_idem ..

/-- What a device name leaves in the buffer is a name in the working directory. -/
theorem splitDevice_cutPath {name sub : List UInt8} (h : splitDevice path = .device name sub) :
    splitDevice (cutPath path) = .curdir name := by
  have hcut : cutPath path = name := by simp only [cutPath, h]
  have hname : name = devicePart path := by
    unfold splitDevice at h
    split at h
    · exact nomatch h
    · split at h
      · split at h <;> exact nomatch h
      · split at h
        · exact nomatch h
        · exact (Start.device.inj h).1.symm
  have hdrop : name.drop (devicePart name).length = [] := by
    rw [hname, devicePart_idem, List.drop_length]
  rw [hcut]
  unfold splitDevice
  rw [hdrop]

/-- Every other path is left as it is. -/
theorem cutPath_eq (h : ∀ name sub, splitDevice path ≠ .device name sub) : cutPath path = path := by
  unfold cutPath
  cases hs : splitDevice path with
  | device name sub => exact absurd hs (h name sub)
  | curdir sub => rfl
  | bootfs sub => rfl
  | curfs sub => rfl

theorem deviceRoot_err {name : List UInt8} (h : s.deviceRoot name = .error e) : e ≠ -eNoEnt := by
  unfold State.deviceRoot at h
  split at h
  · cases h
    decide
  · split at h
    · cases h
      decide
    · split at h
      · exact nomatch h
      · split at h
        · exact nomatch h
        · cases h
          decide

/-- A device name whose file is not found is the name of a device. -/
theorem device_of_noent {name sub : List UInt8} (hs : splitDevice path = .device name sub)
    (hr : s.resolve cwd path = .err (-eNoEnt) ()) : ∃ n, s.deviceRoot name = .ok n := by
  unfold State.resolve at hr
  rw [hs] at hr
  simp only [State.startNode] at hr
  cases hroot : s.deviceRoot name with
  | ok n => exact ⟨n, rfl⟩
  | error e =>
    rw [hroot] at hr
    cases hr
    exact absurd rfl (deviceRoot_err hroot)

theorem noent_of_lookup (h : Running s cwd) (hr : vfsLookup cwd path s = .err (-eNoEnt) t) :
    s.resolve cwd path = .err (-eNoEnt) () := by
  obtain ⟨f, -, hres | he | he⟩ := vfsLookup_err h hr
  · exact hres
  · exact absurd he (by decide)
  · exact absurd he (by decide)

theorem getDevice_after (h : Running s cwd) (f : List Bool) (path : List UInt8) :
    getDevice cwd path (s.after f) = match s.startNode cwd (splitDevice path) with
      | .error e => .err e (s.after f)
      | .ok n    => .ok (n, (splitDevice path).sub) ((s.addRef n 1).after f) :=
  getDevice_run (h.after f).refs (h.after f).held

/-- The second lookup is the same as the first one unless it is misled. -/
theorem sameStart_iff (h : Running s cwd) : SameStart s cwd path ↔ ¬ Misled s cwd path := by
  constructor
  · rintro hsame ⟨name, sub, hs, hres, hother⟩
    obtain ⟨n, hn⟩ := device_of_noent hs hres
    have hl : vfsLookup cwd path (s.after []) = .err (-eNoEnt) (s.after []) := by
      rw [vfsLookup_clean h, hres]
      rfl
    have hfirst := getDevice_after h [] path
    rw [hs] at hfirst
    simp only [State.startNode, hn] at hfirst
    obtain ⟨u', hsecond⟩ := hsame [] _ hl _ _ hfirst
    rw [vfsLookupParent, getDevice_after h, splitDevice_cutPath hs] at hsecond
    -- the name without its device starts from the working directory
    cases cwd with
    | none => cases hsecond
    | some m =>
      simp only [State.startNode, Start.sub, Outcome.ok.injEq, Prod.mk.injEq] at hsecond
      obtain ⟨⟨rfl, rfl⟩, -⟩ := hsecond
      rcases hother m hn with hne | hne
      · exact hne rfl
      · exact hne rfl
  · intro hmis f t hl start u hfirst
    have hres : s.resolve cwd path = .err (-eNoEnt) () := noent_of_lookup (s := s.after f) (h.after f) hl
    obtain ⟨g, rfl, -⟩ := vfsLookup_err (h.after f) hl
    rw [getDevice_after h] at hfirst
    rw [vfsLookupParent, State.after_after, getDevice_after h]
    by_cases hdev : ∃ name sub, splitDevice path = .device name sub
    · obtain ⟨name, sub, hs⟩ := hdev
      obtain ⟨n, hn⟩ := device_of_noent hs hres
      have hsame : cwd = some n ∧ sub = name := by
        by_contra hne
        refine hmis ⟨name, sub, hs, hres, fun n' hn' => ?_⟩
        obtain rfl : n = n' := Except.ok.inj (hn.symm.trans hn')
        rwa [not_and_or] at hne
      obtain ⟨rfl, rfl⟩ := hsame
      rw [hs] at hfirst
      simp only [State.startNode, hn, Outcome.ok.injEq] at hfirst
      rw [splitDevice_cutPath hs, ← hfirst.1]
      exact ⟨_, rfl⟩
    · rw [cutPath_eq fun name sub hs => hdev ⟨name, sub, hs⟩]
      cases hstart : s.startNode cwd (splitDevice path) with
      | error e =>
        rw [hstart] at hfirst
        cases hfirst
      | ok n =>
        rw [hstart] at hfirst
        simp only [Outcome.ok.injEq] at hfirst
        rw [← hfirst.1]
        exact ⟨_, rfl⟩

/-! ## What an open gives back -/

/-- No reference is more or less than before. -/
def SameCounts (s t : State) : Prop := t.refCount = s.refCount ∧ t.openCount = s.openCount

instance : Std.Refl SameCounts := ⟨fun _ => ⟨rfl, rfl⟩⟩
instance : IsTrans State SameCounts := ⟨fun _ _ _ h1 h2 => ⟨h2.1.trans h1.1, h2.2.trans h1.2⟩⟩

/-- The call returns the error, with every reference given back. -/
def Gives (s : State) (cwd : Option Node) (path : List UInt8) (flags : Nat) (e : Int) : Prop :=
  ∃ t, vfsOpen cwd path flags s = .err e t ∧ SameCounts s t

/-- The errors of `vfs_open`, step by step: of the lookup, of the create path, of `O_EXCL`, of `vop_open`, of the
    truncation. -/
structure ErrorsRight (s : State) (cwd : Option Node) (path : List UInt8) (flags : Nat) : Prop where
  lookup : ∀ e t, vfsLookup cwd path s = .err e t → ¬ (e = -eNoEnt ∧ oCreat flags = true) → Gives s cwd path flags e
  create : ∀ t, vfsLookup cwd path s = .err (-eNoEnt) t → oCreat flags = true → ∃ e, Gives s cwd path flags e
  excl : ∀ n t, vfsLookup cwd path s = .ok n t → oExcl flags = true ∧ oCreat flags = true →
    Gives s cwd path flags (-eExists)
  opened : ∀ n t e u, vfsLookup cwd path s = .ok n t → ¬ (oExcl flags = true ∧ oCreat flags = true) →
    vopOpen n flags t = .err e u → Gives s cwd path flags e
  truncated : ∀ n t u e v, vfsLookup cwd path s = .ok n t → ¬ (oExcl flags = true ∧ oCreat flags = true) →
    vopOpen n flags t = .ok () u → oTrunc flags = true ∨ oCreat flags = true →
    vopTruncate n (u.addOpen n 1) = .err e v → Gives s cwd path flags e

/-- The path is there, and `O_EXCL` forgets it; or it is not, and the second lookup leads to a `vop_create`. -/
structure CreateFails (s : State) (cwd : Option Node) (path : List UInt8) (flags : Nat) : Prop where
  mode : FlagsOk flags
  creat : oCreat flags = true
  fails : (oExcl flags = true ∧ ∃ n, s.resolve cwd path = .ok n ()) ∨
    s.resolve cwd path = .err (-eNoEnt) () ∧ ∃ n, s.startNode cwd (splitDevice (cutPath path)) = .ok n

/-- Giving back a reference that is not an open one. -/
theorem vopRefDec_held (h0 : 0 ≤ s.openCount n) (hlt : s.openCount n < s.refCount n)
    (hdev : s.refCount n = 1 → sfsNode s n = true) : vopRefDec n s = .ok () (s.addRef n (-1)) := by
  unfold vopRefDec
  rw [Proc.get_bind, Proc.check_bind_pos (by omega), Proc.modify_bind]
  by_cases hlast : s.refCount n = 1
  · rw [if_pos hlast]
    refine vop_ok ?_ h0 (by simp; omega) (by simp [hlast, maxInodeCount])
    have hsfs := hdev hlast
    cases n with
    | dev i => cases hsfs
    | sfs ino => rfl
  · rw [if_neg hlast]
    rfl

theorem vopOpenDec_run (h0 : 0 < s.openCount n) (hle : s.openCount n ≤ s.refCount n)
    (hroom : s.refCount n < maxInodeCount) : vopOpenDec n s = .ok () (s.addOpen n (-1)) := by
  unfold vopOpenDec
  rw [Proc.get_bind, Proc.check_bind_pos h0, Proc.modify_bind]
  by_cases hlast : s.openCount n = 1
  · rw [if_pos hlast]
    exact vop_ok rfl (by simp; omega) (by simp; omega) hroom
  · rw [if_neg hlast]
    rfl

theorem transfer_sameCounts : Keeps SameCounts transfer := by
  intro s
  unfold transfer mayFail
  rw [Proc.get_bind]
  cases s.faults with
  | nil => exact ⟨rfl, rfl⟩
  | cons b rest =>
    simp only [Proc.put_bind]
    split
    · exact ⟨rfl, rfl⟩
    · exact ⟨rfl, rfl⟩

theorem sfsTruncLoop_sameCounts (ino : Nat) : ∀ b, Keeps SameCounts (sfsTruncLoop ino b) := by
  intro b
  induction b with
  | zero => exact .of_pure ()
  | succ b ih =>
    have hrest : Keeps SameCounts (Proc.modify (fun s : State =>
        { s with disk := Function.update s.disk ino ((s.disk ino).map fun d => { d with blocks := d.blocks.take b }) }) >>=
        fun _ => (sfsTruncLoop ino b : VfsM Unit)) := .bind (.of_modify fun _ => ⟨rfl, rfl⟩) fun _ => ih
    unfold sfsTruncLoop
    split
    · exact transfer_sameCounts.bind fun _ => hrest
    · exact hrest

/-- A truncation counts nothing. -/
theorem vopTruncate_sameCounts (n : Node) : Keeps SameCounts (vopTruncate n) := by
  refine .bind (fun s => ?_) fun _ => ?_
  · rcases vop_cases State.isFile n s with ⟨h, -⟩ | ⟨p, h⟩
    · rw [h]
      exact refl_of SameCounts s
    · rw [h]
      trivial
  · cases n with
    | dev i => exact .of_pure ()
    | sfs ino =>
      refine .bind .of_get fun s => ?_
      split
      · exact .of_pure ()
      · split
        · exact .of_check _ _
        · exact (sfsTruncLoop_sameCounts ino _).bind fun _ => .of_modify fun _ => ⟨rfl, rfl⟩

/-- A device that a path leads to is in memory. -/
theorem resolve_dev (h : Running s cwd) {i : Nat} (hr : s.resolve cwd path = .ok (.dev i) ()) :
    0 < s.refCount (.dev i) := by
  unfold State.resolve at hr
  cases hstart : s.startNode cwd (splitDevice path) with
  | error e =>
    rw [hstart] at hr
    exact nomatch hr
  | ok n =>
    rw [hstart] at hr
    simp only [State.below] at hr
    split at hr
    · cases hr
      exact (startNode_held h.image h.refs h.held hstart).1
    · split at hr
      · exact nomatch hr
      · cases n with
        | dev j => exact nomatch hr
        | sfs ino =>
          -- names lead to inodes of the file system
          simp only [State.once] at hr
          split at hr
          · exact nomatch hr
          · split at hr
            · exact nomatch hr
            · unfold State.load at hr
              split at hr <;> exact nomatch hr

/-- The reference that a lookup returns can be given back. -/
theorem vopRefDec_found (h : Running s cwd) (hr : s.resolve cwd path = .ok n ()) (hsame : SameCounts (s.addRef n 1) t) :
    ∃ u, vopRefDec n t = .ok () u ∧ SameCounts s u := by
  obtain ⟨h0, hle⟩ := h.refs.opened n
  have href : t.refCount n = s.refCount n + 1 := by rw [hsame.1, State.addRef_self]
  have hopen : t.openCount n = s.openCount n := by rw [hsame.2, State.addRef_openCount]
  refine ⟨_, vopRefDec_held (by omega) (by omega) fun hlast => ?_, ?_, ?_⟩
  · cases n with
    | dev i =>
      have hpos := resolve_dev h hr
      omega
    | sfs ino => rfl
  · have hcancel : (s.addRef n 1).addRef n (-1) = s := State.addRef_cancel
    rw [← congrArg State.refCount hcancel]
    simp only [State.addRef, hsame.1]
  · exact hsame.2

/-! ## The errors -/

theorem openNode_opened (h : Running s cwd) (hr : s.resolve cwd path = .ok n ()) (hsame : SameCounts (s.addRef n 1) t)
    {u : State} (ho : vopOpen n flags t = .err e u) : ∃ v, openNode n flags t = .err e v ∧ SameCounts s v := by
  have hu : u = t := by
    rcases vopOpen_cases n flags t with ⟨ho', -⟩ | ⟨e', ho'⟩ | ⟨p, ho'⟩
    · exact nomatch ho.symm.trans ho'
    · exact (Outcome.err.inj (ho.symm.trans ho')).2
    · exact nomatch ho.symm.trans ho'
  rw [hu] at ho
  obtain ⟨v, hv, hcounts⟩ := vopRefDec_found h hr hsame
  exact ⟨v, Proc.bind_err (Proc.onErr_err ho hv), hcounts⟩

theorem openNode_truncated (h : Running s cwd) (hr : s.resolve cwd path = .ok n ()) (hsame : SameCounts (s.addRef n 1) t)
    {u v : State} (ho : vopOpen n flags t = .ok () u) (htc : oTrunc flags = true ∨ oCreat flags = true)
    (ht : vopTruncate n (u.addOpen n 1) = .err e v) : ∃ w, openNode n flags t = .err e w ∧ SameCounts s w := by
  have hu : u = t ∧ t.refCount n < maxInodeCount := by
    rcases vopOpen_cases n flags t with ⟨ho', hroom⟩ | ⟨e', ho'⟩ | ⟨p, ho'⟩
    · exact ⟨(Outcome.ok.inj (ho.symm.trans ho')).2, hroom⟩
    · exact nomatch ho.symm.trans ho'
    · exact nomatch ho.symm.trans ho'
  obtain ⟨rfl, hroom⟩ := hu
  obtain ⟨h0, hle⟩ := h.refs.opened n
  have hcounts : SameCounts (u.addOpen n 1) v := (vopTruncate_sameCounts n).err ht
  have href : v.refCount n = s.refCount n + 1 := by rw [hcounts.1, State.addOpen_refCount, hsame.1, State.addRef_self]
  have hopen : v.openCount n = s.openCount n + 1 := by rw [hcounts.2, State.addOpen_self, hsame.2, State.addRef_openCount]
  have hdec : vopOpenDec n v = .ok () (v.addOpen n (-1)) := by
    refine vopOpenDec_run (by omega) (by omega) ?_
    rw [hcounts.1]
    exact hroom
  have hback : SameCounts (s.addRef n 1) (v.addOpen n (-1)) := by
    refine ⟨hcounts.1.trans hsame.1, ?_⟩
    show Function.update v.openCount n (v.openCount n + -1) = s.openCount
    rw [hopen, hcounts.2, State.addOpen, hsame.2, Int.add_neg_cancel_right, State.addRef_openCount, Function.update_idem,
      Function.update_eq_self]
  obtain ⟨w, hw, hcounts'⟩ := vopRefDec_found h hr hback
  refine ⟨w, ?_, hcounts'⟩
  unfold openNode
  rw [Proc.bind_ok (Proc.onErr_ok ho), vopOpenInc, Proc.modify_bind, if_pos htc]
  exact Proc.bind_err (Proc.onErr_err ht ((Proc.bind_ok hdec).trans hw))

/-- Off the create path and the `O_EXCL` conflict, every error is returned with nothing held. -/
theorem errorsRight_of (h : Running s cwd) (hok : FlagsOk flags) (hc : ¬ CreateFails s cwd path flags) :
    ErrorsRight s cwd path flags where
  lookup e t hl hne := by
    obtain ⟨g, rfl, -⟩ := vfsLookup_err h hl
    refine ⟨s.after g, ?_, ⟨rfl, rfl⟩⟩
    rw [vfsOpen_run hok, hl]
    exact if_neg hne
  create t hl hcreat := by
    have hres := noent_of_lookup h hl
    obtain ⟨g, rfl, -⟩ := vfsLookup_err h hl
    rcases createPath_cases (h.after g) (cutPath path) with ⟨e, -, hp⟩ | ⟨⟨n, hstart⟩, -⟩
    · refine ⟨e, s.after g, ?_, ⟨rfl, rfl⟩⟩
      rw [vfsOpen_run hok, hl]
      exact (if_pos ⟨rfl, hcreat⟩).trans hp
    · exact absurd ⟨hok, hcreat, .inr ⟨hres, n, hstart⟩⟩ hc
  excl n t hl hec := absurd ⟨hok, hec.2, .inl ⟨hec.1, n, (vfsLookup_ok h hl).1⟩⟩ hc
  opened n t e u hl hec ho := by
    obtain ⟨hres, g, rfl⟩ := vfsLookup_ok h hl
    obtain ⟨v, hv, hcounts⟩ := openNode_opened (t := (s.addRef n 1).after g) h hres ⟨rfl, rfl⟩ ho
    refine ⟨v, ?_, hcounts⟩
    rw [vfsOpen_run hok, hl]
    exact (if_neg hec).trans hv
  truncated n t u e v hl hec ho htc ht := by
    obtain ⟨hres, g, rfl⟩ := vfsLookup_ok h hl
    obtain ⟨w, hw, hcounts⟩ := openNode_truncated (t := (s.addRef n 1).after g) h hres ⟨rfl, rfl⟩ ho htc ht
    refine ⟨w, ?_, hcounts⟩
    rw [vfsOpen_run hok, hl]
    exact (if_neg hec).trans hw

/-- On the create path the machine stops, and `O_EXCL` keeps a reference for good. -/
theorem not_errorsRight (h : Running s cwd) (hc : CreateFails s cwd path flags) :
    ¬ ErrorsRight (s.after []) cwd path flags := by
  intro hr
  have hl := @vfsLookup_clean s cwd path h
  rcases hc.fails with ⟨hexcl, n, hres⟩ | ⟨hres, n, hstart⟩
  · rw [hres] at hl
    obtain ⟨t, ht, hcounts⟩ := hr.excl n _ hl ⟨hexcl, hc.creat⟩
    rw [vfsOpen_run hc.mode, hl] at ht
    obtain ⟨-, rfl⟩ := Outcome.err.inj ((if_pos ⟨hexcl, hc.creat⟩).symm.trans ht)
    have href := congrFun hcounts.1 n
    rw [State.addRef_self] at href
    omega
  · rw [hres] at hl
    obtain ⟨e, t, ht, -⟩ := hr.create _ hl hc.creat
    rw [vfsOpen_run hc.mode, hl] at ht
    rcases createPath_cases (h.after []) (cutPath path) with ⟨e', hstart', -⟩ | ⟨-, hp⟩
    · exact nomatch hstart'.symm.trans hstart
    · exact nomatch hp.symm.trans ((if_pos ⟨rfl, hc.creat⟩).symm.trans ht)

/-- The second lookup is right and every error gives back what was taken, unless a device name misleads the lookup, `O_EXCL`
    meets a file, or the create path gets as far as an inode. -/
theorem vfs_open_create_iff (h : Running s cwd) :
    (SameStart s cwd path ∧ ∀ f, FlagsOk flags → ErrorsRight (s.after f) cwd path flags) ↔
      ¬ Misled s cwd path ∧ ¬ CreateFails s cwd path flags := by
  rw [sameStart_iff h]
  refine and_congr_right fun _ => ⟨fun hr hc => not_errorsRight h hc (hr [] hc.mode), fun hc f hok => ?_⟩
  exact errorsRight_of (h.after f) hok fun hc' => hc ⟨hc'.mode, hc'.creat, hc'.fails⟩

/-- A file that is there, opened without `O_CREAT`. -/
theorem vfs_open_create_iff_reading :
    SameStart oneFile (some (.sfs 1)) [0x66] ∧
      ∀ f, FlagsOk 0 → ErrorsRight (oneFile.after f) (some (.sfs 1)) [0x66] 0 := by
  refine (vfs_open_create_iff oneFile_running).mpr ⟨?_, fun hc => absurd hc.creat (by decide)⟩
  rintro ⟨name, sub, hs, -⟩
  rw [show splitDevice [0x66] = .curdir [0x66] from by decide] at hs
  exact nomatch hs

/-- `d:g` with `O_CREAT` looks for a directory `d`; `f` with `O_CREAT | O_EXCL` keeps a reference; and `g` with `O_CREAT` stops
    the machine. -/
theorem vfs_open_create_wrong :
    ¬ SameStart oneFile (some (.sfs 1)) [0x64, 0x3a, 0x67] ∧ ¬ ErrorsRight oneFile (some (.sfs 1)) [0x66] 13 ∧
      ¬ ErrorsRight oneFile (some (.sfs 1)) [0x67] 5 := by
  refine ⟨?_, ?_, ?_⟩
  · rw [sameStart_iff oneFile_running, not_not]
    exact ⟨[0x64], [0x67], by decide, rfl, fun _ _ => .inr (by decide)⟩
  · exact not_errorsRight oneFile_running ⟨⟨false, true, rfl, fun _ => rfl⟩, by decide, .inl ⟨by decide, .sfs 2, rfl⟩⟩
  · exact not_errorsRight oneFile_running ⟨⟨false, true, rfl, fun _ => rfl⟩, by decide, .inr ⟨rfl, .sfs 1, rfl⟩⟩

end Ucore.Vfs
