import Mathlib.Data.List.Basic
import Ucore.Fs.Vfs.Path

/-!
# `Fs.Vfs.Correctness.Resolve` — what a lookup finds

The names under an inode as functions of the image: `State.once` is one component, `State.startOf` the place where a path
starts, and `State.resolve` puts them together the way `vfs_lookup` does. Every call of the lookup family ends as these say,
unless an allocation or a transfer fails on the way; and it leaves the counts as they were, with one more reference to the
inode it returns.
-/

namespace Ucore.Vfs

variable {α β : Type} {s : State} {n m : Node} {f : List Bool} {e : Int}

/-! ## Counts -/

namespace State

/-- The state with other faults ahead. -/
def after (s : State) (f : List Bool) : State := { s with faults := f }

@[simp] theorem after_faults : (s.after f).faults = f := rfl
@[simp] theorem after_after {g : List Bool} : (s.after f).after g = s.after g := rfl
@[simp] theorem after_self : s.after s.faults = s := rfl
@[simp] theorem after_addRef {k : Int} : (s.after f).addRef n k = (s.addRef n k).after f := rfl
@[simp] theorem after_addOpen {k : Int} : (s.after f).addOpen n k = (s.addOpen n k).after f := rfl
@[simp] theorem after_disk : (s.after f).disk = s.disk := rfl
@[simp] theorem after_refCount : (s.after f).refCount = s.refCount := rfl
@[simp] theorem after_openCount : (s.after f).openCount = s.openCount := rfl

@[simp] theorem addRef_disk {k : Int} : (s.addRef n k).disk = s.disk := rfl
@[simp] theorem addRef_openCount {k : Int} : (s.addRef n k).openCount = s.openCount := rfl
@[simp] theorem addRef_self {k : Int} : (s.addRef n k).refCount n = s.refCount n + k := Function.update_self ..

@[simp] theorem addOpen_disk {k : Int} : (s.addOpen n k).disk = s.disk := rfl
@[simp] theorem addOpen_refCount {k : Int} : (s.addOpen n k).refCount = s.refCount := rfl
@[simp] theorem addOpen_self {k : Int} : (s.addOpen n k).openCount n = s.openCount n + k := Function.update_self ..

theorem addRef_refCount {k : Int} : (s.addRef n k).refCount m = s.refCount m + if m = n then k else 0 := by
  unfold addRef
  by_cases h : m = n
  · rw [if_pos h, h]
    exact Function.update_self ..
  · rw [if_neg h, Int.add_zero]
    exact Function.update_of_ne h ..

/-- Two states that differ in nothing but the references differ in nothing. -/
theorem ext_refCount {s t : State} (h : ∀ n, s.refCount n = t.refCount n)
    (ht : { s with refCount := t.refCount } = t) : s = t := by
  rw [← ht, ← funext h]

theorem addRef_comm {k l : Int} : (s.addRef n k).addRef m l = (s.addRef m l).addRef n k := by
  apply ext_refCount _ rfl
  intro i
  simp only [addRef_refCount]
  omega

theorem addRef_add {k l : Int} : (s.addRef n k).addRef n l = s.addRef n (k + l) := by
  apply ext_refCount _ rfl
  intro i
  simp only [addRef_refCount]
  split <;> omega

theorem addRef_zero : s.addRef n 0 = s := by
  apply ext_refCount _ rfl
  intro i
  simp only [addRef_refCount]
  split <;> omega

@[simp] theorem addRef_cancel : (s.addRef n 1).addRef n (-1) = s := by
  rw [addRef_add]
  exact addRef_zero

end State

/-! ## Ends, or an injected failure -/

/-- The call ends as `o` says, or an allocation or transfer has failed. -/
def OrFails (s : State) (o : List Bool → Outcome VfsPanic Int State α) (r : Outcome VfsPanic Int State α) : Prop :=
  ∃ f, f ⊆ s.faults ∧ (r = o f ∨ true ∈ s.faults ∧ (∃ e, (e = -eNoMem ∨ e = -eInval) ∧ r = .err e (s.after f)))

namespace OrFails

variable {o : List Bool → Outcome VfsPanic Int State β}

theorem of_eq {o : List Bool → Outcome VfsPanic Int State α} {r : Outcome VfsPanic Int State α} (h : r = o s.faults) :
    OrFails s o r :=
  ⟨s.faults, List.Subset.refl _, .inl h⟩

theorem after {r : Outcome VfsPanic Int State β} (hf : f ⊆ s.faults) (h : OrFails (s.after f) o r) : OrFails s o r := by
  obtain ⟨g, hg, hr | ⟨ht, e, he, hr⟩⟩ := h
  · exact ⟨g, List.Subset.trans hg hf, .inl hr⟩
  · exact ⟨g, List.Subset.trans hg hf, .inr ⟨hf ht, e, he, hr⟩⟩

/-- Sequencing: the second part starts with the faults that the first one has left. -/
theorem bind {x : VfsM α} {k : α → VfsM β} {a : α} (hx : OrFails s (fun f => .ok a (s.after f)) (x s))
    (hk : ∀ f ⊆ s.faults, OrFails (s.after f) o (k a (s.after f))) : OrFails s o ((x >>= k) s) := by
  obtain ⟨f, hf, hr | ⟨ht, e, he, hr⟩⟩ := hx
  · rw [Proc.bind_ok hr]
    exact (hk f hf).after hf
  · rw [Proc.bind_err hr]
    exact ⟨f, hf, .inr ⟨ht, e, he, rfl⟩⟩

/-- When nothing fails. -/
theorem eq {r : Outcome VfsPanic Int State β} (h : OrFails s o r) (hs : true ∉ s.faults) : ∃ f ⊆ s.faults, r = o f := by
  obtain ⟨f, hf, hr | ⟨ht, -⟩⟩ := h
  · exact ⟨f, hf, hr⟩
  · exact absurd ht hs

theorem mayFail (he : e = eNoMem ∨ e = eInval) : OrFails s (fun f => .ok () (s.after f)) (Vfs.mayFail e s) := by
  unfold Vfs.mayFail
  simp only [Proc.get_bind]
  cases hs : s.faults with
  | nil => exact of_eq (by rw [hs]; simp only [Proc.pure_run, ← hs, State.after_self])
  | cons b rest =>
    refine ⟨rest, hs ▸ List.subset_cons_self .., ?_⟩
    simp only [Proc.put_bind]
    cases b with
    | false => exact .inl rfl
    | true =>
      refine .inr ⟨hs ▸ List.mem_cons_self, -e, ?_, rfl⟩
      exact he.imp (congrArg _) (congrArg _)

theorem kmalloc : OrFails s (fun f => .ok () (s.after f)) (Vfs.kmalloc s) := mayFail (.inl rfl)

theorem transfer : OrFails s (fun f => .ok () (s.after f)) (Vfs.transfer s) := mayFail (.inr rfl)

end OrFails

/-! ## The image and the counts -/

/-- `SFS_TYPE_FILE`, `SFS_TYPE_DIR` and `SFS_TYPE_LINK` -/
def DiskNode.Typed (d : DiskNode) : Prop := d.type = sfsTypeDir ∨ d.type = sfsTypeFile ∨ d.type = sfsTypeLink

/-- A file system image: the root is a directory, and the entries have names and lead to inodes. -/
structure Image (s : State) : Prop where
  root : s.isDir (.sfs sfsBlknRoot) = true
  typed : ∀ ino d, s.disk ino = some d → d.Typed
  entry : ∀ ino d, s.disk ino = some d → ∀ e ∈ d.entries, e.2 ≠ 0 → ∃ d', s.disk e.2 = some d' ∧ d'.nlinks ≠ 0
  named : ∀ ino d, s.disk ino = some d → ∀ e ∈ d.entries, e.2 ≠ 0 →
    e.1 ≠ [] ∧ slash ∉ e.1 ∧ e.1.length ≤ sfsMaxFnameLen

/-- The references of a running system: the devices and the boot file system hold theirs, and what is in memory has been
    loaded. -/
structure Refs (s : State) : Prop where
  opened : ∀ n, 0 ≤ s.openCount n ∧ s.openCount n ≤ s.refCount n
  loaded : ∀ ino, 0 < s.refCount (.sfs ino) → s.isType sfsTypeLink (.sfs ino) = false
  device : ∀ i < s.devs.length, 0 < s.refCount (.dev i)
  boot : ∀ n, s.bootfs = some n → n = .sfs sfsBlknRoot
  root : 0 < s.refCount (.sfs sfsBlknRoot)

/-- A working directory, and the reference that it is. -/
def Held (s : State) (cwd : Option Node) : Prop := ∀ n, cwd = some n → s.isDir n = true ∧ 0 < s.refCount n

/-! ## One component -/

namespace State

/-- An answer about the inodes of `s`, as the end of a call: the inode that is found has one more reference. -/
def answer (s : State) : Outcome VfsPanic Int Unit Node → Outcome VfsPanic Int State Node
  | .ok n _  => .ok n (s.addRef n 1)
  | .err e _ => .err e s
  | .panic p => .panic p

/-- What `sfs_load_inode` answers for an inode that is there. -/
def load (s : State) (ino : Nat) : Outcome VfsPanic Int Unit Node :=
  if s.isType sfsTypeLink (.sfs ino) = true then .panic .invalidType else .ok (.sfs ino) ()

/-- What `sfs_lookup_once` answers. -/
def once (s : State) (ino : Nat) (name : List UInt8) : Outcome VfsPanic Int Unit Node :=
  if sfsMaxFnameLen < name.length then .panic .direntSearchName
  else
    match s.find ino name with
    | none   => .err (-eNoEnt) ()
    | some i => s.load i

theorem isType_of_disk {type ino : Nat} {d : DiskNode} (h : s.disk ino = some d) :
    s.isType type (.sfs ino) = decide (d.type = type) := by
  simp only [isType, h, Option.any_some]

/-- A name that is found is in an entry. -/
theorem find_eq_some {ino i : Nat} {name : List UInt8} (h : s.find ino name = some i) :
    ∃ d e, s.disk ino = some d ∧ e ∈ d.entries ∧ e.1 = name ∧ e.2 = i ∧ i ≠ 0 := by
  unfold find at h
  obtain ⟨d, hd, h⟩ := Option.bind_eq_some_iff.mp h
  obtain ⟨e, he, h⟩ := Option.bind_eq_some_iff.mp h
  have hp := List.find?_some he
  simp only [decide_eq_true_eq] at hp
  cases h
  exact ⟨d, e, hd, List.mem_of_find?_eq_some he, hp.2, rfl, hp.1⟩

end State

theorem load_run {i : Nat} {d : DiskNode} (hd : s.disk i = some d) (hn : d.nlinks ≠ 0) (ht : d.Typed)
    (hl : 0 < s.refCount (.sfs i) → s.isType sfsTypeLink (.sfs i) = false) :
    OrFails s (fun f => (s.after f).answer (s.load i)) (sfsLoadInode i s) := by
  unfold sfsLoadInode
  simp only [Proc.get_bind]
  by_cases hr : 0 < s.refCount (.sfs i)
  · rw [if_pos hr]
    refine OrFails.of_eq ?_
    simp only [State.load, hl hr, Bool.false_eq_true, if_false, State.after_self]
    rfl
  · rw [if_neg hr]
    refine OrFails.kmalloc.bind fun f hf => ?_
    simp only [hd]
    refine OrFails.transfer.bind fun g hg => ?_
    rw [Proc.check_bind_pos hn]
    refine OrFails.kmalloc.bind fun g' hg' => OrFails.of_eq ?_
    -- the type on the disk decides whether `sfs_get_ops` knows it
    rcases ht with ht | ht | ht
    · rw [Proc.check_bind_pos (.inl ht), State.load, State.isType_of_disk hd, ht]
      rfl
    · rw [Proc.check_bind_pos (.inr ht), State.load, State.isType_of_disk hd, ht]
      rfl
    · rw [Proc.check_bind_neg (by rw [ht]; decide), State.load, State.isType_of_disk hd, ht]
      rfl

theorem once_run (hi : Image s) (hs : Refs s) {ino : Nat} {name : List UInt8} :
    OrFails s (fun f => (s.after f).answer (s.once ino name)) (sfsLookupOnce ino name s) := by
  unfold sfsLookupOnce State.once
  by_cases hlen : name.length ≤ sfsMaxFnameLen
  · rw [Proc.check_bind_pos hlen, if_neg (Nat.not_lt.mpr hlen)]
    refine OrFails.kmalloc.bind fun f hf => OrFails.transfer.bind fun g hg => ?_
    simp only [Proc.get_bind, State.after_after]
    show OrFails _ _ ((match s.find ino name with | none => _ | some i => _ : VfsM Node) (s.after g))
    cases hfind : s.find ino name with
    | none => exact OrFails.of_eq rfl
    | some i =>
      obtain ⟨d, e, hd, he, -, rfl, he0⟩ := State.find_eq_some hfind
      obtain ⟨d', hd', hn⟩ := hi.entry ino d hd e he he0
      exact load_run (s := s.after g) hd' hn (hi.typed e.2 d' hd') (hs.loaded e.2)
  · rw [Proc.check_bind_neg hlen, if_pos (Nat.lt_of_not_le hlen)]
    exact OrFails.of_eq rfl

/-! ## References that are held during a lookup -/

/-- The state with a temporary reference keeps the counts in order. -/
theorem Refs.addRef (hs : Refs s) (hn : 0 < s.refCount n) : Refs (s.addRef n 1) where
  opened i := by
    have h := hs.opened i
    rw [State.addRef_refCount, State.addRef_openCount]
    split <;> omega
  loaded ino hino := by
    rw [State.addRef_refCount] at hino
    refine hs.loaded ino ?_
    split at hino
    next h => exact h ▸ hn
    next => omega
  device i hi := by
    have h := hs.device i hi
    rw [State.addRef_refCount]
    split <;> omega
  boot := hs.boot
  root := by
    have h := hs.root
    rw [State.addRef_refCount]
    split <;> omega

theorem Image.addRef {k : Int} (hi : Image s) : Image (s.addRef n k) := ⟨hi.root, hi.typed, hi.entry, hi.named⟩

/-- Giving back a reference that is not the last. -/
theorem vopRefDec_run (h : 1 < s.refCount n) : vopRefDec n s = .ok () (s.addRef n (-1)) := by
  unfold vopRefDec
  simp only [Proc.get_bind]
  rw [Proc.check_bind_pos (by omega), Proc.modify_bind, if_neg (by omega)]
  rfl

/-- A reference is held while `x` runs, and given back whatever `x` answers. -/
theorem held {x : VfsM Node} {o : Outcome VfsPanic Int Unit Node} (hn : 0 < s.refCount n)
    (hx : OrFails (s.addRef n 1) (fun f => ((s.addRef n 1).after f).answer o) (x (s.addRef n 1))) :
    OrFails s (fun f => (s.after f).answer o) ((do
      let r ← Proc.attempt x
      vopRefDec n
      match r with
      | .error e => Proc.fail e
      | .ok n    => pure n) (s.addRef n 1)) := by
  have hdec (f : List Bool) : vopRefDec n ((s.addRef n 1).after f) = .ok () (s.after f) := by
    rw [vopRefDec_run (by rw [State.after_refCount, State.addRef_self]; omega), State.after_addRef, State.addRef_cancel]
  obtain ⟨f, hf, hr | ⟨ht, e, he, hr⟩⟩ := hx
  · refine ⟨f, hf, .inl ?_⟩
    cases o with
    | ok m u =>
      have hdec' : vopRefDec n (((s.addRef n 1).after f).addRef m 1) = .ok () ((s.after f).addRef m 1) := by
        have h1 : 1 < (((s.addRef n 1).after f).addRef m 1).refCount n := by
          rw [State.addRef_refCount, State.after_refCount, State.addRef_self]
          split <;> omega
        rw [vopRefDec_run h1, State.addRef_comm, State.after_addRef, State.addRef_cancel]
      rw [Proc.bind_ok (Proc.attempt_ok hr)]
      exact Proc.bind_ok hdec'
    | err e u =>
      rw [Proc.bind_ok (Proc.attempt_err hr)]
      exact Proc.bind_ok (hdec f)
    | panic p => exact Proc.bind_panic (Proc.attempt_panic hr)
  · refine ⟨f, hf, .inr ⟨ht, e, he, ?_⟩⟩
    rw [Proc.bind_ok (Proc.attempt_err hr)]
    exact Proc.bind_ok (hdec f)

theorem sfsLookup_run (hi : Image s) (hs : Refs s) {ino : Nat} {path : List UInt8}
    (hd : s.isDir (.sfs ino) = true) (hr : 0 < s.refCount (.sfs ino)) (hp : path ≠ [] ∧ path.head? ≠ some slash) :
    OrFails s (fun f => (s.after f).answer (s.once ino path)) (sfsLookup ino path s) := by
  unfold sfsLookup vopRefInc
  rw [Proc.check_bind_pos hp, Proc.modify_bind, Proc.get_bind, if_neg (by
    show ¬ s.isDir (.sfs ino) = false
    rw [hd]
    exact Bool.noConfusion)]
  exact held hr (once_run hi.addRef (hs.addRef hr))

/-! ## Where a path starts, and what it leads to -/

namespace State

/-- The root of the device: of its file system, or the device itself. -/
def deviceRoot (s : State) (name : List UInt8) : Except Int Node :=
  match s.devs.findIdx? fun v => v.devname = name with
  | none   => .error (-eNoDev)
  | some i =>
    match s.devs[i]? with
    | none   => .error (-eNoDev)
    | some v =>
      if v.mounted = true then .ok (.sfs sfsBlknRoot)
      else if v.mountable = false then .ok (.dev i)
      else .error (-eNaDev)

/-- The node that `get_device` starts from. -/
def startNode (s : State) (cwd : Option Node) : Start → Except Int Node
  | .curdir _      =>
    match cwd with
    | none   => .error (-eNoEnt)
    | some n => .ok n
  | .device name _ => s.deviceRoot name
  | .bootfs _      =>
    match s.bootfs with
    | none   => .error (-eNoEnt)
    | some n => .ok n
  | .curfs _       =>
    match cwd with
    | none   => .error (-eNoEnt)
    | some _ => .ok (.sfs sfsBlknRoot)

/-- `vop_lookup` of what is left of the path: all of it is one name. -/
def below (s : State) (n : Node) (sub : List UInt8) : Outcome VfsPanic Int Unit Node :=
  if sub = [] then .ok n ()
  else if maxInodeCount ≤ s.refCount n + 1 then .panic .inodeCheck
  else
    match n with
    | .dev _   => .err (-eNoEnt) ()
    | .sfs ino => s.once ino sub

end State

/-- What `get_device` leaves of the path. -/
def Start.sub : Start → List UInt8
  | .curdir sub   => sub
  | .device _ sub => sub
  | .bootfs sub   => sub
  | .curfs sub    => sub

/-- What `vfs_lookup` answers. -/
def State.resolve (s : State) (cwd : Option Node) (path : List UInt8) : Outcome VfsPanic Int Unit Node :=
  match s.startNode cwd (splitDevice path) with
  | .error e => .err e ()
  | .ok n    => s.below n (splitDevice path).sub

theorem skipSlashes_head (path : List UInt8) : (skipSlashes path).head? ≠ some slash := by
  intro h
  have hp := List.head?_dropWhile_not (· = slash) path
  rw [show path.dropWhile (· = slash) = skipSlashes path from rfl, h] at hp
  exact absurd rfl (of_decide_eq_false hp)

theorem splitDevice_slash (path : List UInt8) : splitDevice (slash :: path) = .bootfs (skipSlashes path) := rfl

/-- The rest of a path never starts with a slash. -/
theorem splitDevice_sub_head (path : List UInt8) : (splitDevice path).sub.head? ≠ some slash := by
  by_cases hs : path.head? = some slash
  · obtain ⟨rest, rfl⟩ := List.head?_eq_some_iff.mp hs
    rw [splitDevice_slash]
    exact skipSlashes_head rest
  · unfold splitDevice
    split
    · exact hs
    · split
      · split
        · exact skipSlashes_head _
        · exact hs
      · split
        · exact skipSlashes_head _
        · exact skipSlashes_head _

/-! ## The calls -/

section Calls

variable {cwd : Option Node} {path : List UInt8}

theorem deviceRoot_ok {name : List UInt8} (h : s.deviceRoot name = .ok n) :
    n = .sfs sfsBlknRoot ∨ ∃ i < s.devs.length, n = .dev i := by
  unfold State.deviceRoot at h
  split at h
  · exact nomatch h
  · next i _ =>
    split at h
    · exact nomatch h
    · next v hv =>
      split at h
      · exact .inl (Except.ok.inj h).symm
      · split at h
        · exact .inr ⟨i, (List.getElem?_eq_some_iff.mp hv).1, (Except.ok.inj h).symm⟩
        · exact nomatch h

/-- Whatever a path starts from is in memory, and a directory if it is not a device. -/
theorem startNode_held (hi : Image s) (hs : Refs s) (hc : Held s cwd) {start : Start}
    (h : s.startNode cwd start = .ok n) : 0 < s.refCount n ∧ (sfsNode s n = true → s.isDir n = true) := by
  have hroot : 0 < s.refCount (.sfs sfsBlknRoot) ∧ (sfsNode s (.sfs sfsBlknRoot) = true → s.isDir (.sfs sfsBlknRoot) = true) :=
    ⟨hs.root, fun _ => hi.root⟩
  cases start with
  | curdir sub =>
    cases cwd with
    | none => exact nomatch h
    | some m =>
      obtain rfl : m = n := Except.ok.inj h
      exact ⟨(hc m rfl).2, fun _ => (hc m rfl).1⟩
  | device name sub =>
    rcases deviceRoot_ok h with rfl | ⟨i, hlt, rfl⟩
    · exact hroot
    · exact ⟨hs.device i hlt, fun hn => nomatch hn⟩
  | bootfs sub =>
    simp only [State.startNode] at h
    cases hb : s.bootfs with
    | none => simp [hb] at h
    | some m =>
      rw [hb] at h
      obtain rfl : m = n := Except.ok.inj h
      rw [hs.boot m hb]
      exact hroot
  | curfs sub =>
    cases cwd with
    | none => exact nomatch h
    | some m =>
      obtain rfl : Node.sfs sfsBlknRoot = n := Except.ok.inj h
      exact hroot

theorem sfsGetRoot_run (hr : 0 < s.refCount (.sfs sfsBlknRoot)) :
    sfsGetRoot s = .ok (.sfs sfsBlknRoot) (s.addRef (.sfs sfsBlknRoot) 1) := by
  have hload : sfsLoadInode sfsBlknRoot s = .ok (.sfs sfsBlknRoot) (s.addRef (.sfs sfsBlknRoot) 1) := by
    unfold sfsLoadInode
    rw [Proc.get_bind, if_pos hr]
    rfl
  exact Proc.bind_ok (Proc.attempt_ok hload)

theorem vfsGetCurdir_run (hn : cwd = some n) : vfsGetCurdir cwd s = .ok n (s.addRef n 1) := by
  rw [hn]
  rfl

theorem vfsGetRoot_run (hs : Refs s) {name : List UInt8} :
    vfsGetRoot name s = match s.deviceRoot name with
      | .error e => .err e s
      | .ok n    => .ok n (s.addRef n 1) := by
  unfold vfsGetRoot State.deviceRoot
  rw [Proc.get_bind]
  cases s.devs.findIdx? fun v => v.devname = name with
  | none => rfl
  | some i =>
    cases hv : s.devs[i]? with
    | none =>
      simp only [hv]
      rfl
    | some v =>
      simp only [hv]
      by_cases hm : v.mounted = true
      · rw [if_pos hm, if_pos hm]
        exact sfsGetRoot_run hs.root
      · rw [if_neg hm, if_neg hm]
        by_cases hf : v.mountable = false
        · rw [if_pos hf, if_pos hf]
          rfl
        · rw [if_neg hf, if_neg hf]
          rfl

theorem getDevice_run (hs : Refs s) (hc : Held s cwd) :
    getDevice cwd path s = match s.startNode cwd (splitDevice path) with
      | .error e => .err e s
      | .ok n    => .ok (n, (splitDevice path).sub) (s.addRef n 1) := by
  unfold getDevice
  cases splitDevice path with
  | curdir sub =>
    cases cwd with
    | none => rfl
    | some n => rfl
  | device name sub =>
    show (vfsGetRoot name >>= fun n => pure (n, sub)) s = _
    simp only [State.startNode]
    have h := @vfsGetRoot_run s hs name
    cases hroot : s.deviceRoot name with
    | error e =>
      rw [hroot] at h
      exact Proc.bind_err h
    | ok n =>
      rw [hroot] at h
      exact Proc.bind_ok h
  | bootfs sub =>
    show (vfsGetBootfs >>= fun n => pure (n, sub)) s = _
    simp only [State.startNode]
    cases hb : s.bootfs with
    | none => exact Proc.bind_err (by rw [vfsGetBootfs, Proc.get_bind, hb]; rfl)
    | some n => exact Proc.bind_ok (by rw [vfsGetBootfs, Proc.get_bind, hb]; rfl)
  | curfs sub =>
    cases cwd with
    | none => rfl
    | some n =>
      obtain ⟨hd, hr⟩ := hc n rfl
      have hsfs : sfsNode (s.addRef n 1) n = true := by
        cases n with
        | dev i => exact nomatch hd
        | sfs ino => rfl
      have hload := sfsGetRoot_run (hs.addRef hr).root
      have hdec : vopRefDec n ((s.addRef n 1).addRef (.sfs sfsBlknRoot) 1) = .ok () (s.addRef (.sfs sfsBlknRoot) 1) := by
        rw [vopRefDec_run, State.addRef_comm, State.addRef_cancel]
        rw [State.addRef_refCount, State.addRef_self]
        split <;> omega
      show (vfsGetCurdir (some n) >>= _) s = _
      rw [Proc.bind_ok (vfsGetCurdir_run rfl), Proc.get_bind, Proc.check_bind_pos hsfs, Proc.bind_ok hload,
        Proc.bind_ok hdec]
      rfl

theorem vop_run {has : State → Node → Bool} (hs : Refs s) (hh : has s n = true) (hn : s.refCount n < maxInodeCount) :
    vop has n s = .ok () s := by
  have h := hs.opened n
  unfold vop
  rw [Proc.get_bind, Proc.check_bind_pos hh, Proc.check_run_pos ⟨h.2, h.1, hn, by omega⟩]

theorem vop_full {has : State → Node → Bool} (hh : has s n = true) (hn : maxInodeCount ≤ s.refCount n) :
    vop has n s = .panic .inodeCheck := by
  unfold vop
  rw [Proc.get_bind, Proc.check_bind_pos hh, Proc.check_run_neg (by omega)]

/-- `vop_lookup` on the node that a path starts from, with the reference that is held for it. -/
theorem vopLookup_run (hi : Image s) (hs : Refs s) {sub : List UInt8} (hn : 0 < s.refCount n)
    (hd : sfsNode s n = true → s.isDir n = true) (hp : sub ≠ [] ∧ sub.head? ≠ some slash) :
    OrFails (s.addRef n 1) (fun f => ((s.addRef n 1).after f).answer (s.below n sub)) (vopLookup n sub (s.addRef n 1)) := by
  have hs' := hs.addRef hn
  unfold State.below
  rw [if_neg hp.1]
  by_cases hfull : maxInodeCount ≤ s.refCount n + 1
  · rw [if_pos hfull]
    have hfull' : maxInodeCount ≤ (s.addRef n 1).refCount n := by rw [State.addRef_self]; exact hfull
    cases n with
    | dev i => exact .of_eq (Proc.bind_panic (vop_full rfl hfull'))
    | sfs ino => exact .of_eq (Proc.bind_panic (vop_full (hd rfl) hfull'))
  · rw [if_neg hfull]
    have hroom : (s.addRef n 1).refCount n < maxInodeCount := by rw [State.addRef_self]; omega
    cases n with
    | dev i =>
      refine .of_eq ?_
      show (vop anyNode (.dev i) >>= fun _ => if sub ≠ [] then Proc.fail (-eNoEnt) else do
        vopRefInc (.dev i)
        pure (Node.dev i)) (s.addRef (.dev i) 1) = _
      rw [Proc.bind_ok (vop_run hs' rfl hroom), if_pos hp.1]
      rfl
    | sfs ino =>
      unfold vopLookup
      simp only
      rw [Proc.bind_ok (vop_run hs' (hd rfl) hroom)]
      exact sfsLookup_run hi.addRef hs' (hd rfl) (by rw [State.addRef_self]; omega) hp

theorem vfsLookup_run (hi : Image s) (hs : Refs s) (hc : Held s cwd) :
    OrFails s (fun f => (s.after f).answer (s.resolve cwd path)) (vfsLookup cwd path s) := by
  have hget := @getDevice_run s cwd path hs hc
  unfold vfsLookup State.resolve
  cases hstart : s.startNode cwd (splitDevice path) with
  | error e =>
    rw [hstart] at hget
    exact .of_eq (Proc.bind_err hget)
  | ok n =>
    rw [hstart] at hget
    obtain ⟨hn, hd⟩ := startNode_held hi hs hc hstart
    rw [Proc.bind_ok hget]
    simp only
    by_cases hsub : (splitDevice path).sub = []
    · have hb : s.below n (splitDevice path).sub = .ok n () := if_pos hsub
      rw [if_neg (not_not_intro hsub), hb]
      exact .of_eq rfl
    · rw [if_pos hsub]
      exact held hn (vopLookup_run hi hs hn hd ⟨hsub, splitDevice_sub_head path⟩)

end Calls

end Ucore.Vfs
