import Ucore.Fs.Correctness.Files
import Ucore.Process.Correctness.ExecFresh
import Ucore.Process.Execve
import Mathlib.Logic.Relation

/-!
# `Process.Correctness.ExecFiles` — the descriptors of a program that `do_execve` has started

`files_closeall` leaves the first two descriptors. The one that the program file is opened with is read and sought
(`Traffic`), and nobody closes it: it is there when the program starts, and the inode is open.
-/

namespace Ucore.Execve

open Vfs

variable {α : Type} {s t u : Sys} {fd j : Nat} {ops : NodeOps} {boot : Nat → Pte} {a : Args}

/-! ## Loading through a descriptor -/

/-- The table has seen traffic on `fd` only. -/
def FdTraffic (fd : Nat) (s t : Sys) : Prop := Traffic fd s.files t.files

instance : Std.Refl (FdTraffic fd) := ⟨fun s => refl_of (Traffic fd) s.files⟩
instance : IsTrans Sys (FdTraffic fd) := ⟨fun _ _ _ h h' => trans_of (Traffic fd) h h'⟩

theorem traffic_inExec (x : ExecM α) : Keeps (FdTraffic fd) (inExec x) := .within_any x fun s _ => refl_of (Traffic fd) s.files

theorem traffic_loadIcodeRead (ops : NodeOps) (fd len : Nat) (offset : Int) :
    Keeps (FdTraffic fd) (inFiles (loadIcodeRead ops fd len offset)) := by
  refine .within (q := Traffic fd) ?_ fun s t h => h
  refine .bind (.attempt (traffic_fileSeek ops fd offset)) fun ret => ?_
  cases ret with
  | error e => exact .of_pure _
  | ok _ =>
    refine .bind (.attempt (traffic_sysfileRead ops fd len)) fun r => ?_
    cases r with
    | error e => exact .of_pure _
    | ok r => exact .of_pure _

theorem traffic_readHdr (hdr : Bytes → α) (len offset : Nat) : Keeps (FdTraffic fd) (readHdr ops fd hdr len offset) := by
  refine .bind (traffic_loadIcodeRead ops fd len _) fun r => ?_
  split
  · exact .of_fail _
  · exact .of_pure _

theorem traffic_loadFile (ph : ProgHdr) (pgdir fuel : Nat) :
    ∀ start la, Keeps (FdTraffic fd) (loadFile ops fd ph pgdir fuel start la) := by
  induction fuel with
  | zero => exact fun _ _ => .of_stop _
  | succ fuel ih =>
    intro start la
    unfold loadFile
    split
    · refine .bind (traffic_inExec _) fun page => ?_
      cases page with
      | none => exact .of_fail _
      | some page =>
        refine .bind (traffic_loadIcodeRead ops fd _ _) fun r => .bind (traffic_inExec _) fun _ => ?_
        split
        · exact .of_fail _
        · exact ih _ _
    · exact .of_pure _

theorem traffic_loadSegment (m : Nat) (ph : ProgHdr) : Keeps (FdTraffic fd) (loadSegment ops fd m ph) := by
  unfold loadSegment
  split
  · exact .of_fail _
  · refine .bind (traffic_inExec _) fun _ => .bind .of_get fun s => ?_
    exact .bind (traffic_loadFile ph _ _ _ _) fun start => traffic_inExec _

theorem traffic_loadSegments (m phoff n : Nat) : ∀ i, Keeps (FdTraffic fd) (loadSegments ops fd m phoff n i) := by
  induction n with
  | zero => exact fun _ => .of_pure ()
  | succ n ih =>
    intro i
    refine .bind (traffic_readHdr _ _ _) fun ph => ?_
    split
    · exact ih _
    · exact .bind (traffic_loadSegment m ph) fun _ => ih _

/-- **`load_icode`** reads and seeks. -/
theorem traffic_loadIcode (argc : Nat) (kargv : Nat → Bytes) : Keeps (FdTraffic fd) (loadIcode boot ops fd argc kargv) := by
  refine .bind (.of_check _ _) fun _ => .bind (traffic_inExec _) fun m => .onErr ?_ (traffic_inExec _)
  refine .bind (traffic_readHdr _ _ _) fun elf => ?_
  split
  · exact .of_fail _
  · exact .bind (traffic_loadSegments m _ _ _) fun _ => traffic_inExec _

/-! ## Before and behind it -/

/-- The table is as it was. -/
def SameFiles (s t : Sys) : Prop := ∀ j, t.files.file j = s.files.file j

instance : Std.Refl SameFiles := ⟨fun _ _ => rfl⟩
instance : IsTrans Sys SameFiles := ⟨fun _ _ _ h h' j => (h' j).trans (h j)⟩

theorem sameFiles_inExec (x : ExecM α) : Keeps SameFiles (inExec x) := .within_any x fun _ _ _ => rfl

theorem sameFiles_kmalloc : Keeps SameFiles (inFiles (inVfs Vfs.kmalloc)) := by
  have hfiles : Keeps (fun s t : FilesSys => ∀ j, t.file j = s.file j) (inVfs Vfs.kmalloc) := by
    intro s
    have h := fun j => sameFile_inVfs (j := j) Vfs.kmalloc s
    cases hrun : inVfs Vfs.kmalloc s with
    | ok a t => exact fun j => (h j).of_ok hrun
    | err e t => exact fun j => (h j).of_err hrun
    | panic p => trivial
  exact hfiles.within fun _ _ h => h

theorem sameFiles_copyString (a : Args) (dst : Bytes) (src maxn : Nat) : Keeps SameFiles (copyString a dst src maxn) := by
  unfold copyString
  refine .bind .of_get fun s => .bind (sameFiles_inExec _) fun r => ?_
  obtain ⟨ok, buf⟩ := r
  dsimp only
  split
  · exact .of_fail _
  · exact .of_pure _

theorem sameFiles_copyKargvFrom (a : Args) (n : Nat) : ∀ i, Keeps SameFiles (copyKargvFrom a n i) := by
  induction n with
  | zero => exact fun _ => .of_pure _
  | succ n ih =>
    intro i
    refine .bind sameFiles_kmalloc fun _ => .bind (sameFiles_copyString a _ _ _) fun buf => ?_
    exact .bind (ih _) fun bufs => .of_pure _

theorem sameFiles_copyArgs (a : Args) : Keeps SameFiles (copyArgs a) := by
  have hname : Keeps SameFiles (copyName a) := by
    refine .bind .of_get fun s => ?_
    split
    · exact .of_pure _
    · exact sameFiles_copyString a _ _ _
  have hkargv : Keeps SameFiles (copyKargv a a.argc.toNat) := by
    refine .bind .of_get fun s => .bind (sameFiles_inExec _) fun ok => ?_
    split
    · exact .of_fail _
    · exact sameFiles_copyKargvFrom a _ _
  exact .bind hname fun name => .bind hkargv fun kargv => .of_pure _

theorem sysfileOpen_ok {path flags : Nat} (h : sysfileOpen a path flags s = .ok fd t) : Opens s.files fd t.files := by
  obtain ⟨p, s₁, hpath, hopen⟩ := Proc.bind_eq_ok.mp h
  have hsame : SameFiles s s₁ := by
    have hk : Keeps SameFiles (copyPath a path) :=
      .bind sameFiles_kmalloc fun _ => .bind (sameFiles_copyString a _ _ _) fun buf => .of_pure _
    exact hk.ok hpath
  obtain ⟨t', hrun, rfl⟩ := Proc.within_eq_ok.mp hopen
  have ho := fileOpen_ok hrun
  exact ⟨ho.lt, (congrArg FdFile.status (hsame fd)).symm.trans ho.free, ho.opened, ho.node, ho.openCount,
    fun j hj => (ho.other j hj).trans (hsame j)⟩

/-! ## `do_execve` -/

/-- The table of a process, and its table after a `do_execve` that has opened the program file as `fd`. -/
structure Execed (s : FilesSys) (fd : Nat) (t : FilesSys) : Prop where
  lt : fd < filesStructNentry
  free : fd < 2 → (s.file fd).status = .none
  opened : (t.file fd).status = .opened
  node : (t.file fd).node ≠ none
  std : ∀ j, j < 2 → j ≠ fd → t.file j = s.file j
  closed : ∀ j, 2 ≤ j → j < filesStructNentry → j ≠ fd → (t.file j).status ≠ .opened

theorem execFile_done {argc : Nat} {name : Bytes} {kargv : List Bytes}
    (h : execFile boot ops fd argc name kargv s = .ok .done t) : FdTraffic fd s t := by
  obtain ⟨_, s₁, hleave, h₁⟩ := Proc.bind_eq_ok.mp h
  obtain ⟨ret, s₂, hload, h₂⟩ := Proc.bind_eq_ok.mp h₁
  have htraffic : FdTraffic fd s s₂ :=
    trans_of (FdTraffic fd) ((traffic_inExec leaveMm).ok hleave) ((traffic_loadIcode argc _).attempt.ok hload)
  cases ret with
  | error e => cases h₂
  | ok _ =>
    cases h₂
    exact htraffic

/-- **`do_execve`.** The descriptor of the program file stays open, beside the first two. -/
theorem doExecve_done (h : doExecve boot ops a s = .ok .done t) : ∃ fd, Execed s.files fd t.files := by
  unfold doExecve at h
  split at h
  · cases h
  obtain ⟨args, s₁, hargs, h₁⟩ := Proc.bind_eq_ok.mp h
  have hsame : SameFiles s s₁ := (sameFiles_copyArgs a).attempt.ok hargs
  cases args with
  | error e => cases h₁
  | ok args =>
    obtain ⟨_, s₂, hclose, h₂⟩ := Proc.bind_eq_ok.mp h₁
    obtain ⟨files, hall, rfl⟩ := Proc.within_eq_ok.mp hclose
    obtain ⟨hstd, hclosed⟩ := filesCloseall_ok hall
    obtain ⟨fd, s₃, hopen, h₃⟩ := Proc.bind_eq_ok.mp h₂
    cases fd with
    | error e => cases h₃
    | ok fd =>
      have ho := sysfileOpen_ok (Proc.attempt_eq_ok.mp hopen)
      have htraffic : Traffic fd s₃.files t.files := execFile_done h₃
      have hother : ∀ j, j ≠ fd → t.files.file j = files.file j := fun j hj => (htraffic.other j hj).trans (ho.other j hj)
      have hfirst : ∀ j, j < 2 → files.file j = s.files.file j := fun j hj => (hstd j hj).trans (hsame j)
      obtain ⟨pos, hpos⟩ := htraffic.file
      refine ⟨fd, ho.lt, fun hlt => ?_, htraffic.status.trans ho.opened, ?_, fun j hj hne => ?_, fun j h2 hlt hne => ?_⟩
      · rw [← hfirst fd hlt]
        exact ho.free
      · rw [hpos]
        exact ho.node
      · exact (hother j hne).trans (hfirst j hj)
      · rw [hother j hne]
        exact hclosed j h2 hlt

/-- Exactly what is open afterwards. -/
theorem Execed.opened_iff {s t : FilesSys} (h : Execed s fd t) (hj : j < filesStructNentry) :
    (t.file j).status = .opened ↔ j = fd ∨ j < 2 ∧ (s.file j).status = .opened := by
  by_cases hne : j = fd
  · subst hne
    exact ⟨fun _ => .inl rfl, fun _ => h.opened⟩
  · constructor
    · intro ho
      have h2 : j < 2 := Nat.lt_of_not_le fun hle => h.closed j hle hj hne ho
      exact .inr ⟨h2, h.std j h2 hne ▸ ho⟩
    · rintro (he | ⟨h2, ho⟩)
      · exact absurd he hne
      · rw [h.std j h2 hne]
        exact ho

/-- One `do_execve` that succeeds. -/
def Execs (s t : Sys) : Prop := ∃ boot ops a, doExecve boot ops a s = .ok .done t

/-- Of the descriptors the first two are open afterwards, if they were before and as they were, and no other. -/
def KeepsStd (s t : FilesSys) : Prop := ∀ j, j < filesStructNentry →
  ((t.file j).status = .opened ↔ j < 2 ∧ (s.file j).status = .opened) ∧
    (j < 2 → (s.file j).status = .opened → (t.file j).node = (s.file j).node ∧ (t.file j).pos = (s.file j).pos)

/-- The first two descriptors survive any number of programs. -/
theorem execs_std (h : Relation.ReflTransGen Execs s t) (hj : j < 2) (ho : (s.files.file j).status = .opened) :
    t.files.file j = s.files.file j := by
  induction h with
  | refl => rfl
  | @tail u v _ hstep ih =>
    obtain ⟨boot, ops, a, hrun⟩ := hstep
    obtain ⟨fd, hex⟩ := doExecve_done hrun
    refine (hex.std j hj ?_).trans ih
    rintro rfl
    have hnone := hex.free hj
    rw [ih, ho] at hnone
    cases hnone

/-- The bytes of a program file, behind every inode -/
def nodesOf (file : ElfFile) : NodeOps where
  tryseek s _ pos := (if pos < 0 then -eInval else 0, s.disk, s.faults)
  read s _ pos len :=
    ({ ret := 0, used := min (file.got pos.toNat len) len, data := fun i => file.bytes (pos.toNat + i) }, s.disk, s.faults)

/-- `kernel_execve("f", {"f"})` -/
def execF : Args where
  name := kernBase
  argc := 1
  argv := kernBase + 16
  mem := putLe (putLe (fun _ => 0) kernBase 0x66 8) (kernBase + 16) kernBase 8
  junk := fun _ => 0

/-- A process without an address space, with `stdin` and `stdout` open on a device. -/
def stdSys : Sys where
  ex := freeKernel 0
  files :=
    { fs := oneFile
      filesp :=
        { pwd := some (.sfs 1)
          fdArray := fun fd =>
            if fd < 2 then
              { status := .opened, readable := true, writable := true, pos := 0, node := some (.dev 0), openCount := 1 }
            else { status := .none, readable := false, writable := false, pos := 0, node := none, openCount := 0 }
          filesCount := 1 } }
  pid := 1
  name := fun _ => 0

theorem stdSys_run : ∃ t, doExecve noBoot (nodesOf bareFile) execF stdSys = .ok .done t ∧
    (t.files.file 2).status = .opened := by
  have hrun : (doExecve noBoot (nodesOf bareFile) execF stdSys).test
      (fun r t => decide (r = .done ∧ (t.files.file 2).status = .opened)) = true := by decide +kernel
  obtain ⟨r, t, hexec, hdone⟩ := Outcome.exists_of_test hrun
  obtain ⟨rfl, hopen⟩ := of_decide_eq_true hdone
  exact ⟨t, hexec, hopen⟩

end Ucore.Execve
