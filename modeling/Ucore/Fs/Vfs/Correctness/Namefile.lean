import Ucore.Fs.Vfs.Correctness.CreatePath
import Ucore.Fs.Vfs.Namefile

/-!
# `Fs.Vfs.Correctness.Namefile` — the path that `sfs_namefile` writes

`Above s ino ups`: the directory `ino` is in the tree below the root, and `ups` are the directories above it, each with the
name that it has for the one below. Going up, `sfs_namefile` passes the same allocations and transfers in the same order,
until the first that fails (`Spends`), or until a name does not fit. Whatever happens, it has written to its buffer only, and
every count is as before. `Tells` relates it, on any tree, to the `sfs_namefile` of `Fs.Vfs.Path`.
-/

namespace Ucore.Vfs

variable {α β : Type} {s : State} {f : List Bool} {e : Int} {es es' : List Int} {i ino parent : Nat} {d : DiskNode}

/-! ## Allocations and transfers that may fail -/

/-- The first of these calls that fails, by its code, and the faults that are left then. -/
def spend : List Int → List Bool → Option Int × List Bool
  | [], f             => (none, f)
  | _ :: _, []        => (none, [])
  | e :: es, b :: f   => if b = true then (some e, f) else spend es f

theorem spend_append (es' : List Int) : ∀ (es : List Int) (f : List Bool), spend (es ++ es') f = match spend es f with
    | (none, g)   => spend es' g
    | (some e, g) => (some e, g)
  | [], f           => rfl
  | e :: es, []     => by
    cases es' with
    | nil => rfl
    | cons e' es' => rfl
  | e :: es, b :: f => by
    rw [List.cons_append, spend, spend]
    split
    · rfl
    · exact spend_append es' es f

/-- **The call ends as `o` says** if none of these calls fails, and else with the code of the first that does. -/
def Spends (s : State) (es : List Int) (o : List Bool → Outcome VfsPanic Int State α) (r : Outcome VfsPanic Int State α) : Prop :=
  r = match spend es s.faults with
    | (none, f)   => o f
    | (some e, f) => .err (-e) (s.after f)

namespace Spends

variable {o : List Bool → Outcome VfsPanic Int State β}

theorem of_eq {o : List Bool → Outcome VfsPanic Int State α} {r : Outcome VfsPanic Int State α} (h : r = o s.faults) :
    Spends s [] o r := h

theorem bind {x : VfsM α} {k : α → VfsM β} {a : α} (hx : Spends s es (fun f => .ok a (s.after f)) (x s))
    (hk : ∀ f, Spends (s.after f) es' o (k a (s.after f))) : Spends s (es ++ es') o ((x >>= k) s) := by
  rw [Spends, spend_append]
  rw [Spends] at hx
  cases hsp : spend es s.faults with
  | mk r f =>
    rw [hsp] at hx
    cases r with
    | none =>
      rw [Proc.bind_ok hx]
      exact hk f
    | some e => exact Proc.bind_err hx

theorem mayFail (e : Int) : Spends s [e] (fun f => .ok () (s.after f)) (Vfs.mayFail e s) := by
  rw [Spends, Vfs.mayFail, Proc.get_bind]
  cases hs : s.faults with
  | nil =>
    show Outcome.ok () s = .ok () (s.after [])
    rw [← hs, State.after_self]
  | cons b rest =>
    dsimp only
    rw [Proc.put_bind, spend]
    cases b with
    | false => rfl
    | true => rfl

theorem kmalloc : Spends s [eNoMem] (fun f => .ok () (s.after f)) (Vfs.kmalloc s) := mayFail eNoMem

theorem transfer : Spends s [eInval] (fun f => .ok () (s.after f)) (Vfs.transfer s) := mayFail eInval

end Spends

/-! ## The tree -/

/-- A directory in use. -/
def State.Directory (s : State) (ino : Nat) : Prop := ∃ d, s.disk ino = some d ∧ d.type = sfsTypeDir ∧ d.nlinks ≠ 0

/-- The directory has an entry with this name, which leads to `ino`, and none that leads somewhere else. -/
def State.HasEntry (s : State) (dir : Nat) (name : List UInt8) (ino : Nat) : Prop :=
  ∃ d, s.disk dir = some d ∧ (name, ino) ∈ d.entries ∧ ino ≠ 0 ∧ ∀ e ∈ d.entries, e.2 ≠ 0 → e.1 = name → e.2 = ino

/-- The directory knows `ino` by this name, and by no other. -/
def State.HasName (s : State) (dir : Nat) (name : List UInt8) (ino : Nat) : Prop :=
  ∃ d, s.disk dir = some d ∧ (name, ino) ∈ d.entries ∧ ∀ e ∈ d.entries, e.2 = ino → e.1 = name

/-- **A directory of the tree.** `ups` are those above it, the nearest first, each with the name that it has for the one
below; the last of them is the root, which is its own `".."`. -/
inductive Above (s : State) : Nat → List (Nat × List UInt8) → Prop
  | root (hdir : s.Directory sfsBlknRoot) (hup : s.HasEntry sfsBlknRoot Namefile.dotdot sfsBlknRoot) : Above s sfsBlknRoot []
  | child {ino parent : Nat} {name : List UInt8} {ups : List (Nat × List UInt8)} (h : Above s parent ups)
      (hne : ino ≠ parent) (hdir : s.Directory ino) (hup : s.HasEntry ino Namefile.dotdot parent)
      (hname : s.HasName parent name ino) : Above s ino ((parent, name) :: ups)

/-- The components from the root down, each with a `'/'` behind it. -/
def pathText (ups : List (Nat × List UInt8)) : List UInt8 := ups.reverse.flatMap fun x => x.2 ++ [slash]

variable {ups : List (Nat × List UInt8)} {name : List UInt8}

theorem pathText_cons (x : Nat × List UInt8) (ups : List (Nat × List UInt8)) :
    pathText (x :: ups) = pathText ups ++ (x.2 ++ [slash]) := by
  rw [pathText, List.reverse_cons, List.flatMap_append, List.flatMap_singleton]
  rfl

theorem length_pathText_cons (x : Nat × List UInt8) (ups : List (Nat × List UInt8)) :
    (pathText (x :: ups)).length = (pathText ups).length + (x.2.length + 1) := by
  rw [pathText_cons, List.length_append, List.length_append]
  rfl

theorem Above.directory (h : Above s ino ups) : s.Directory ino := by
  cases h with
  | root hdir _ => exact hdir
  | child _ _ hdir _ _ => exact hdir

theorem HasEntry.find (h : s.HasEntry i name ino) : s.find i name = some ino := by
  obtain ⟨d, hd, hmem, h0, honly⟩ := h
  have hsome : (d.entries.find? fun e => e.2 ≠ 0 ∧ e.1 = name).isSome = true :=
    List.find?_isSome.mpr ⟨_, hmem, decide_eq_true ⟨h0, rfl⟩⟩
  obtain ⟨e, he⟩ := Option.isSome_iff_exists.mp hsome
  have hp := List.find?_some he
  rw [decide_eq_true_eq] at hp
  rw [State.find, hd]
  show (do let e ← d.entries.find? _; pure e.2 : Option Nat) = some ino
  rw [he, ← honly e (List.mem_of_find?_eq_some he) hp.1 hp.2]
  rfl

theorem HasName.findIno (h : s.HasName i name ino) : s.findIno i ino = some name := by
  obtain ⟨d, hd, hmem, honly⟩ := h
  have hsome : (d.entries.find? fun e => e.2 = ino).isSome = true := List.find?_isSome.mpr ⟨_, hmem, decide_eq_true rfl⟩
  obtain ⟨e, he⟩ := Option.isSome_iff_exists.mp hsome
  have hp := List.find?_some he
  rw [decide_eq_true_eq] at hp
  rw [State.findIno, hd]
  show (do let e ← d.entries.find? _; pure e.1 : Option (List UInt8)) = some name
  rw [he, ← honly e (List.mem_of_find?_eq_some he) hp]
  rfl

/-! ## One step up -/

/-- An open inode is referenced. -/
def Counts (s : State) : Prop := ∀ n, 0 ≤ s.openCount n ∧ s.openCount n ≤ s.refCount n

/-- What `sfs_load_inode` needs: nothing for an inode in memory. -/
def loadPoints (s : State) (i : Nat) : List Int := if 0 < s.refCount (.sfs i) then [] else [eNoMem, eInval, eNoMem]

theorem load_spends (hdir : s.Directory i) :
    Spends s (loadPoints s i) (fun f => .ok (.sfs i) ((s.addRef (.sfs i) 1).after f)) (sfsLoadInode i s) := by
  obtain ⟨d, hd, htype, hlinks⟩ := hdir
  rw [sfsLoadInode, Proc.get_bind, loadPoints]
  by_cases hr : 0 < s.refCount (.sfs i)
  · rw [if_pos hr, if_pos hr]
    exact .of_eq rfl
  · rw [if_neg hr, if_neg hr, hd]
    show Spends s ([eNoMem] ++ ([eInval] ++ ([eNoMem] ++ []))) _ _
    refine Spends.kmalloc.bind fun f => Spends.transfer.bind fun f => ?_
    rw [Proc.check_bind_pos hlinks]
    refine Spends.kmalloc.bind fun f => ?_
    rw [Proc.check_bind_pos (.inl htype)]
    exact .of_eq rfl

/-- `sfs_lookup_once` of `".."` -/
theorem lookup_spends (hup : s.HasEntry i Namefile.dotdot parent) (hdir : s.Directory parent) :
    Spends s (eNoMem :: eInval :: loadPoints s parent) (fun f => .ok (.sfs parent) ((s.addRef (.sfs parent) 1).after f))
      (sfsLookupOnce i Namefile.dotdot s) := by
  rw [sfsLookupOnce, Proc.check_bind_pos (by decide)]
  show Spends s ([eNoMem] ++ ([eInval] ++ loadPoints s parent)) _ _
  refine Spends.kmalloc.bind fun f => Spends.transfer.bind fun f => ?_
  rw [Proc.get_bind]
  have hfind : ((s.after f).after f).find i Namefile.dotdot = some parent := HasEntry.find hup
  simp only [State.after_after] at hfind ⊢
  rw [hfind]
  exact load_spends (s := s.after f) hdir

theorem findino_spends (hname : s.HasName parent name ino) :
    Spends s [eInval] (fun f => .ok name (s.after f)) (Namefile.sfsDirentFindino parent ino s) := by
  rw [Namefile.sfsDirentFindino]
  show Spends s ([eInval] ++ []) _ _
  refine Spends.transfer.bind fun f => ?_
  have hfind : (s.after f).findIno parent ino = some name := HasName.findIno hname
  rw [Proc.get_bind, hfind]
  exact .of_eq rfl

/-- A reference that was taken before is given back. -/
theorem refDec_taken (hc : Counts s) (ino : Nat) : vopRefDec (.sfs ino) (s.addRef (.sfs ino) 1) = .ok () s := by
  obtain ⟨h0, hle⟩ := hc (.sfs ino)
  have hdec := vopRefDec_held (s := s.addRef (.sfs ino) 1) (n := .sfs ino) h0
    (by rw [State.addRef_openCount, State.addRef_self]; omega) fun _ => rfl
  rw [State.addRef_cancel] at hdec
  exact hdec

theorem Counts.addRef (hc : Counts s) (n : Node) : Counts (s.addRef n 1) := by
  intro m
  obtain ⟨h0, hle⟩ := hc m
  rw [State.addRef_openCount, State.addRef_refCount]
  split
  · exact ⟨h0, by omega⟩
  · exact ⟨h0, by omega⟩

/-! ## The buffer -/

/-- These bytes are at `a`. -/
def Holds (mem : Bytes) (a : Nat) (l : List UInt8) : Prop := ∀ j < l.length, mem (a + j) = l.getD j 0

variable {mem mem' : Bytes} {a b ptr base len : Nat} {l l' : List UInt8}

theorem Holds.congr (h : Holds mem a l) (hsame : ∀ j < l.length, mem' (b + j) = mem (a + j)) : Holds mem' b l :=
  fun j hj => (hsame j hj).trans (h j hj)

theorem holds_append (h : Holds mem a l) (h' : Holds mem (a + l.length) l') : Holds mem a (l ++ l') := by
  intro j hj
  rw [List.length_append] at hj
  by_cases hlt : j < l.length
  · rw [List.getD_eq_getElem?_getD, List.getElem?_append_left hlt, ← List.getD_eq_getElem?_getD]
    exact h j hlt
  · have hrest := h' (j - l.length) (by omega)
    rw [List.getD_eq_getElem?_getD, List.getElem?_append_right (by omega), ← List.getD_eq_getElem?_getD, ← hrest]
    congr 1
    omega

theorem holds_one (c : UInt8) (h : mem a = c) : Holds mem a [c] := by
  intro j hj
  obtain rfl : j = 0 := by
    rw [List.length_singleton] at hj
    omega
  exact h

/-- A name and the `'/'` behind it. -/
theorem putName_spec (ptr : Nat) (name : List UInt8) (mem : Bytes) :
    Holds (Namefile.putName ptr name mem) ptr (name ++ [slash]) ∧
    ∀ a, ¬ (ptr ≤ a ∧ a < ptr + (name.length + 1)) → Namefile.putName ptr name mem a = mem a := by
  constructor
  · apply holds_append
    · intro j hj
      rw [Namefile.putName, Function.update_of_ne (by omega), memcpy_in ⟨by omega, by omega⟩]
      congr 1
      omega
    · exact holds_one _ (Function.update_self ..)
  · intro a ha
    rw [Namefile.putName, Function.update_of_ne (by omega), memcpy_out (by omega)]

/-- The path in its place. -/
theorem moveFront_spec (h : Holds mem ptr l) (base : Nat) :
    Holds (Namefile.moveFront base ptr l.length mem) base (slash :: (l ++ [0])) ∧
    ∀ a, ¬ (base ≤ a ∧ a < base + (l.length + 2)) → Namefile.moveFront base ptr l.length mem a = mem a := by
  constructor
  · show Holds _ base ([slash] ++ (l ++ [0]))
    refine holds_append (holds_one _ ?_) (holds_append (h.congr fun j hj => ?_) (holds_one _ ?_))
    · rw [Namefile.moveFront, Function.update_of_ne (by omega), Function.update_self]
    · rw [Namefile.moveFront, List.length_singleton, Function.update_of_ne (by omega), Function.update_of_ne (by omega),
        memcpy_in ⟨by omega, by omega⟩]
      congr 1
      omega
    · exact Function.update_self ..
  · intro a ha
    rw [Namefile.moveFront, Function.update_of_ne (by omega), Function.update_of_ne (by omega), memcpy_out (by omega)]

namespace Namefile

/-! ## One turn -/

variable {g : List Bool} {iob : Iobuf} {turns resid : Nat}

/-- The buffer over a changed memory. -/
abbrev onMem (iob : Iobuf) (mem : Bytes) : Iobuf := { iob with ioBase := (mem, iob.ioBase.2) }

/-- What the calls of one turn may fail with. -/
def turnPoints (s : State) (parent : Nat) : List Int := eNoMem :: eInval :: (loadPoints s parent ++ [eInval])

theorem inVfs_ok {x : VfsM α} {v t : State} {r : α} (h : x v = .ok r t) : inVfs x ⟨v, iob⟩ = .ok r ⟨t, iob⟩ := by
  rw [inVfs, Proc.within, h]

theorem inVfs_err {x : VfsM α} {v t : State} (h : x v = .err e t) : inVfs x ⟨v, iob⟩ = .err e ⟨t, iob⟩ := by
  rw [inVfs, Proc.within, h]

theorem inVfs_panic {x : VfsM α} {v : State} {p : VfsPanic} (h : x v = .panic p) : inVfs x ⟨v, iob⟩ = .panic (.vfs p) := by
  rw [inVfs, Proc.within, h]

theorem refDec_after (hc : Counts s) (ino : Nat) (f : List Bool) :
    vopRefDec (.sfs ino) ((s.addRef (.sfs ino) 1).after f) = .ok () (s.after f) :=
  refDec_taken (s := s.after f) hc ino

theorem failed_run (hc : Counts s) (ino : Nat) (ret : Int) (f : List Bool) :
    (failed ino ret : NameM α) ⟨(s.addRef (.sfs ino) 1).after f, iob⟩ = .err ret ⟨s.after f, iob⟩ := by
  rw [failed, Proc.bind_ok (inVfs_ok (refDec_after hc ino f))]
  rfl

/-- At the root both references are given back. -/
theorem loop_root (hc : Counts s) (hdir : s.Directory sfsBlknRoot) (hup : s.HasEntry sfsBlknRoot dotdot sfsBlknRoot)
    (turns ptr resid : Nat) (f : List Bool) :
    sfsNamefileLoop (turns + 1) sfsBlknRoot ptr resid ⟨(s.addRef (.sfs sfsBlknRoot) 1).after f, iob⟩ =
      match spend [eNoMem, eInval] f with
      | (none, g)   => .ok (ptr, resid) ⟨s.after g, iob⟩
      | (some e, g) => .err (-e) ⟨s.after g, iob⟩ := by
  have hlook := lookup_spends (s := (s.addRef (.sfs sfsBlknRoot) 1).after f) hup hdir
  -- the root is held, and so the lookup has nothing to load
  have hheld : loadPoints ((s.addRef (.sfs sfsBlknRoot) 1).after f) sfsBlknRoot = [] := by
    refine if_pos ?_
    have h0 := hc (.sfs sfsBlknRoot)
    rw [State.after_refCount, State.addRef_self]
    omega
  rw [hheld, Spends, State.after_faults] at hlook
  rw [sfsNamefileLoop]
  cases hsp : spend [eNoMem, eInval] f with
  | mk r g =>
    rw [hsp] at hlook
    cases r with
    | some e =>
      rw [Proc.bind_ok (Proc.attempt_err (inVfs_err hlook))]
      exact failed_run hc sfsBlknRoot (-e) g
    | none =>
      rw [Proc.bind_ok (Proc.attempt_ok (inVfs_ok hlook))]
      dsimp only
      rw [State.after_addRef, State.after_after, Proc.bind_ok (inVfs_ok (refDec_after (hc.addRef _) sfsBlknRoot g)), if_pos rfl,
        Proc.bind_ok (inVfs_ok (refDec_after hc sfsBlknRoot g))]
      rfl

/-- Below it the name in the parent goes before what has been written, if there is room. -/
theorem loop_child (hc : Counts s) (hne : ino ≠ parent) (hpar : s.Directory parent) (hup : s.HasEntry ino dotdot parent)
    (hname : s.HasName parent name ino) (turns ptr resid : Nat) (f : List Bool) :
    sfsNamefileLoop (turns + 1) ino ptr resid ⟨(s.addRef (.sfs ino) 1).after f, iob⟩ =
      match spend (turnPoints s parent) f with
      | (none, g)   =>
        if name.length + 1 > resid then .err (-eNoMem) ⟨s.after g, iob⟩
        else sfsNamefileLoop turns parent (ptr - (name.length + 1)) (resid - (name.length + 1))
          ⟨(s.addRef (.sfs parent) 1).after g, onMem iob (putName (ptr - (name.length + 1)) name iob.ioBase.1)⟩
      | (some e, g) => .err (-e) ⟨s.after g, iob⟩ := by
  have hlook := lookup_spends (s := (s.addRef (.sfs ino) 1).after f) hup hpar
  have hload : loadPoints ((s.addRef (.sfs ino) 1).after f) parent = loadPoints s parent := by
    rw [loadPoints, State.after_refCount, State.addRef_refCount, if_neg (fun h => hne (Node.sfs.inj h).symm), Int.add_zero]
    rfl
  rw [hload, Spends, State.after_faults] at hlook
  rw [sfsNamefileLoop, turnPoints, ← List.cons_append, ← List.cons_append, spend_append]
  cases hsp : spend (eNoMem :: eInval :: loadPoints s parent) f with
  | mk r g =>
    rw [hsp] at hlook
    cases r with
    | some e =>
      rw [Proc.bind_ok (Proc.attempt_err (inVfs_err hlook))]
      exact failed_run hc ino (-e) g
    | none =>
      -- the parent is held before the inode is given back
      have hcomm : (((s.addRef (.sfs ino) 1).after f).addRef (.sfs parent) 1).after g =
          ((s.addRef (.sfs parent) 1).addRef (.sfs ino) 1).after g := by
        rw [State.after_addRef, State.after_after, State.addRef_comm]
      have hdir : ((s.addRef (.sfs parent) 1).after g).isDir (.sfs parent) = true := by
        obtain ⟨d, hd, htype, -⟩ := hpar
        show (s.disk parent).any _ = true
        rw [hd]
        exact decide_eq_true htype
      rw [Proc.bind_ok (Proc.attempt_ok (inVfs_ok hlook))]
      dsimp only
      rw [hcomm, Proc.bind_ok (inVfs_ok (refDec_after (hc.addRef _) ino g)), if_neg hne, Proc.get_bind, Proc.check_bind_pos hdir]
      have hfind := findino_spends (s := (s.addRef (.sfs parent) 1).after g) hname
      rw [Spends, State.after_faults] at hfind
      cases hsp : spend [eInval] g with
      | mk r g' =>
        rw [hsp] at hfind
        cases r with
        | some e =>
          rw [Proc.bind_ok (Proc.attempt_err (inVfs_err hfind))]
          exact failed_run hc parent (-e) g'
        | none =>
          rw [Proc.bind_ok (Proc.attempt_ok (inVfs_ok hfind))]
          dsimp only
          split
          · exact failed_run hc parent (-eNoMem) g'
          · rfl

/-! ## The way up -/

/-- What the calls of the loop may fail with, up to the first name that does not fit. -/
def points (s : State) : List (Nat × List UInt8) → Nat → List Int
  | [], _                       => [eNoMem, eInval]
  | (parent, name) :: ups, resid =>
    turnPoints s parent ++ if name.length + 1 > resid then [] else points s ups (resid - (name.length + 1))

/-- The code that the loop ends with: of the first call that fails, or of a name that does not fit. -/
def climbCode (s : State) (ups : List (Nat × List UInt8)) (resid : Nat) (f : List Bool) : Option Int :=
  match (spend (points s ups resid) f).1 with
  | some e => some (-e)
  | none   => if (pathText ups).length ≤ resid then none else some (-eNoMem)

theorem climbCode_root (s : State) (resid : Nat) (f : List Bool) :
    climbCode s [] resid f = (spend [eNoMem, eInval] f).1.map fun e => -e := by
  rw [climbCode, points]
  cases (spend [eNoMem, eInval] f).1 with
  | some e => rfl
  | none => exact if_pos (Nat.zero_le _)

theorem climbCode_child (s : State) (parent : Nat) (name : List UInt8) (ups : List (Nat × List UInt8)) (resid : Nat)
    (f : List Bool) : climbCode s ((parent, name) :: ups) resid f = match spend (turnPoints s parent) f with
      | (none, g)   =>
        if name.length + 1 > resid then some (-eNoMem) else climbCode s ups (resid - (name.length + 1)) g
      | (some e, _) => some (-e) := by
  rw [climbCode, points, spend_append, length_pathText_cons]
  cases spend (turnPoints s parent) f with
  | mk r g =>
    cases r with
    | some e => rfl
    | none =>
      dsimp only
      by_cases hfits : name.length + 1 > resid
      · rw [if_pos hfits, if_pos hfits]
        cases g with
        | nil => exact if_neg (by omega)
        | cons b g => exact if_neg (by omega)
      · rw [if_neg hfits, if_neg hfits, climbCode]
        simp only [Nat.le_sub_iff_add_le (show name.length + 1 ≤ resid by omega)]

/-- How the loop ends: with a code, or with the text before `ptr`. It writes to the `resid` bytes before `ptr` only. -/
def Climbs (s : State) (iob : Iobuf) (ptr resid : Nat) (text : List UInt8) (code : Option Int)
    (r : Outcome NamePanic Int NameState (Nat × Nat)) : Prop :=
  ∃ mem g, (∀ a, ¬ (ptr - resid ≤ a ∧ a < ptr) → mem a = iob.ioBase.1 a) ∧
    match code with
    | some e => r = .err e ⟨s.after g, onMem iob mem⟩
    | none   => r = .ok (ptr - text.length, resid - text.length) ⟨s.after g, onMem iob mem⟩ ∧ text.length ≤ resid ∧
        Holds mem (ptr - text.length) text

/-- A name behind what the rest of the loop writes. -/
theorem Climbs.putName {text : List UInt8} {code : Option Int} {r : Outcome NamePanic Int NameState (Nat × Nat)}
    (hfits : name.length + 1 ≤ resid) (hptr : resid ≤ ptr)
    (h : Climbs s (onMem iob (putName (ptr - (name.length + 1)) name iob.ioBase.1)) (ptr - (name.length + 1))
      (resid - (name.length + 1)) text code r) : Climbs s iob ptr resid (text ++ (name ++ [slash])) code r := by
  obtain ⟨mem, g, hframe, hend⟩ := h
  obtain ⟨hname, hrest⟩ := putName_spec (ptr - (name.length + 1)) name iob.ioBase.1
  refine ⟨mem, g, fun a ha => ?_, ?_⟩
  · -- what comes later is written before the name, in the same `resid` bytes
    rw [hframe a (by omega)]
    exact hrest a (by omega)
  · cases code with
    | some e => exact hend
    | none =>
      obtain ⟨hr, hlen, htext⟩ := hend
      have hsum : (text ++ (name ++ [slash])).length = text.length + (name.length + 1) := by
        rw [List.length_append, List.length_append]
        rfl
      refine ⟨?_, by omega, ?_⟩
      · rw [hr, hsum]
        congr 2 <;> omega
      · rw [hsum, show ptr - (text.length + (name.length + 1)) = ptr - (name.length + 1) - text.length by omega]
        refine holds_append htext (hname.congr fun j hj => ?_)
        rw [show ptr - (name.length + 1) - text.length + text.length + j = ptr - (name.length + 1) + j by omega]
        rw [List.length_append, List.length_singleton] at hj
        exact hframe _ (by omega)

theorem loop_climbs (h : Above s ino ups) (hc : Counts s) : ∀ {turns ptr resid : Nat} (f : List Bool) (iob : Iobuf),
    resid < turns → resid ≤ ptr → Climbs s iob ptr resid (pathText ups) (climbCode s ups resid f)
      (sfsNamefileLoop turns ino ptr resid ⟨(s.addRef (.sfs ino) 1).after f, iob⟩) := by
  -- up the tree; a turn takes at least one byte of `resid`, so that the turns suffice
  induction h with
  | root hdir hup =>
    intro turns ptr resid f iob hturns hptr
    obtain ⟨turns, rfl⟩ := Nat.exists_eq_succ_of_ne_zero (by omega : turns ≠ 0)
    rw [loop_root hc hdir hup, climbCode_root]
    cases spend [eNoMem, eInval] f with
    | mk r g =>
      refine ⟨iob.ioBase.1, g, fun a _ => rfl, ?_⟩
      cases r with
      | some e => rfl
      | none => exact ⟨rfl, Nat.zero_le _, fun j hj => absurd hj (Nat.not_lt_zero j)⟩
  | child h hne _ hup hname ih =>
    intro turns ptr resid f iob hturns hptr
    obtain ⟨turns, rfl⟩ := Nat.exists_eq_succ_of_ne_zero (by omega : turns ≠ 0)
    rw [loop_child hc hne h.directory hup hname, climbCode_child, pathText_cons]
    cases spend (turnPoints s _) f with
    | mk r g =>
      cases r with
      | some e => exact ⟨iob.ioBase.1, g, fun a _ => rfl, rfl⟩
      | none =>
        dsimp only
        split
        · exact ⟨iob.ioBase.1, g, fun a _ => rfl, rfl⟩
        · exact Climbs.putName (by omega) hptr (ih g _ (by omega) (by omega))

/-! ## The call -/

/-- The first allocation or transfer that fails in a call with `room` bytes of buffer. -/
def firstFault (s : State) (ups : List (Nat × List UInt8)) (room : Nat) : Option Int :=
  (spend (eNoMem :: points s ups (room - 2)) s.faults).1

/-- On every exit: of the memory only the buffer is written, and in the file system there are fewer faults ahead, and nothing
else is different. -/
structure Exits (s : State) (iob : Iobuf) (t : NameState) : Prop where
  buffer : ∀ a, ¬ (iob.ioBase.2 ≤ a ∧ a < iob.ioBase.2 + iob.ioResid) → t.iob.ioBase.1 a = iob.ioBase.1 a
  vfs : t.vfs = s.after t.vfs.faults

/-- On success the buffer is advanced by the length of the components. -/
structure Writes (text : List UInt8) (iob iob' : Iobuf) : Prop where
  fits : text.length + 2 ≤ iob.ioResid
  path : Holds iob'.ioBase.1 iob.ioBase.2 (slash :: (text ++ [0]))
  base : iob'.ioBase.2 = iob.ioBase.2 + text.length
  offset : iob'.ioOffset = iob.ioOffset + text.length
  resid : iob'.ioResid = iob.ioResid - text.length
  len : iob'.ioLen = iob.ioLen

/-- The end of the call. -/
theorem end_run {mem : Bytes} {text : List UInt8} {ptr : Nat} (v : State) (hfits : text.length + 2 ≤ iob.ioResid)
    (htext : Holds mem ptr text) :
    ∃ iob', sfsNamefileEnd ptr text.length ⟨v, onMem iob mem⟩ = .ok () ⟨v, iob'⟩ ∧ Writes text iob iob' ∧
      ∀ a, ¬ (iob.ioBase.2 ≤ a ∧ a < iob.ioBase.2 + iob.ioResid) → iob'.ioBase.1 a = mem a := by
  obtain ⟨hpath, hframe⟩ := moveFront_spec htext iob.ioBase.2
  let moved := moveFront iob.ioBase.2 ptr text.length mem
  let iob' : Iobuf := { iob with
    ioBase := (moved, iob.ioBase.2 + text.length)
    ioOffset := iob.ioOffset + text.length
    ioResid := iob.ioResid - text.length }
  have hskip : (Proc.within id (fun _ s => s) NamePanic.iob (iobufSkip (onMem iob moved) text.length) : NameM Iobuf)
      ⟨v, onMem iob moved⟩ = .ok iob' ⟨v, onMem iob moved⟩ :=
    Proc.within_eq_ok.mpr ⟨_, Proc.check_bind_pos (show text.length ≤ iob.ioResid by omega) _ _, rfl⟩
  refine ⟨iob', ?_, ⟨hfits, hpath, rfl, rfl, rfl, rfl⟩, fun a ha => hframe a (by omega)⟩
  rw [sfsNamefileEnd, Proc.get_bind, modMem, Proc.modify_bind, Proc.get_bind]
  exact Proc.bind_ok hskip

theorem spend_mem : ∀ {es : List Int} {f : List Bool}, (spend es f).1 = some e → e ∈ es
  | e' :: es, b :: f, h => by
    rw [spend] at h
    split at h
    · obtain rfl := Option.some.inj h
      exact List.mem_cons_self ..
    · exact List.mem_cons_of_mem _ (spend_mem h)

theorem loadPoints_code (h : e ∈ loadPoints s i) : e = eNoMem ∨ e = eInval := by
  rw [loadPoints] at h
  split at h
  · exact absurd h List.not_mem_nil
  · simp only [List.mem_cons, List.not_mem_nil, or_false] at h
    exact h.elim .inl Or.symm

theorem points_code : ∀ {ups : List (Nat × List UInt8)} {resid : Nat}, e ∈ points s ups resid → e = eNoMem ∨ e = eInval
  | [], _, h                     => by simpa [points] using h
  | (parent, name) :: ups, resid, h => by
    rw [points, turnPoints, List.mem_append, List.mem_cons, List.mem_cons, List.mem_append, List.mem_singleton] at h
    obtain (h | h | h | h) | h := h
    · exact .inl h
    · exact .inr h
    · exact loadPoints_code h
    · exact .inr h
    · split at h
      · exact absurd h List.not_mem_nil
      · exact points_code h

theorem firstFault_code {room : Nat} (h : firstFault s ups room = some e) : e = eNoMem ∨ e = eInval := by
  have hmem := spend_mem h
  rw [List.mem_cons] at hmem
  exact hmem.elim .inl points_code

/-- How the call ends. -/
theorem sfsNamefile_run (h : Above s ino ups) (hc : Counts s) (hroom : 2 < iob.ioResid) :
    ∃ t, Exits s iob t ∧ match firstFault s ups iob.ioResid with
      | some e => sfsNamefile ino ⟨s, iob⟩ = .err (-e) t
      | none   =>
        if (pathText ups).length + 2 ≤ iob.ioResid then sfsNamefile ino ⟨s, iob⟩ = .ok () t ∧ Writes (pathText ups) iob t.iob
        else sfsNamefile ino ⟨s, iob⟩ = .err (-eNoMem) t := by
  have halloc := Spends.kmalloc (s := s)
  rw [Spends] at halloc
  rw [firstFault, show eNoMem :: points s ups (iob.ioResid - 2) = [eNoMem] ++ points s ups (iob.ioResid - 2) from rfl,
    spend_append, sfsNamefile, Proc.get_bind, if_neg (show ¬ iob.ioResid ≤ 2 by omega)]
  cases hsp : spend [eNoMem] s.faults with
  | mk r f =>
    rw [hsp] at halloc
    cases r with
    | some e => exact ⟨⟨s.after f, iob⟩, ⟨fun a _ => rfl, rfl⟩, Proc.bind_err (inVfs_err halloc)⟩
    | none =>
      have htaken : vopRefInc (.sfs ino) (s.after f) = .ok () ((s.addRef (.sfs ino) 1).after f) := rfl
      rw [Proc.bind_ok (inVfs_ok halloc), Proc.bind_ok (inVfs_ok htaken)]
      obtain ⟨mem, g, hframe, hend⟩ := loop_climbs h hc f iob (show iob.ioResid - 2 < iob.ioResid by omega)
        (show iob.ioResid - 2 ≤ iob.ioBase.2 + iob.ioResid by omega)
      -- the loop has kept two bytes for the first `'/'` and the NUL
      have hout : Exits s iob ⟨s.after g, onMem iob mem⟩ := ⟨fun a ha => hframe a (by omega), rfl⟩
      rw [climbCode] at hend
      dsimp only
      cases hf : (spend (points s ups (iob.ioResid - 2)) f).1 with
      | some e =>
        rw [hf] at hend
        exact ⟨_, hout, Proc.bind_err hend⟩
      | none =>
        rw [hf] at hend
        dsimp only at hend ⊢
        by_cases hfits : (pathText ups).length + 2 ≤ iob.ioResid
        · rw [if_pos (show (pathText ups).length ≤ iob.ioResid - 2 by omega)] at hend
          obtain ⟨hloop, -, htext⟩ := hend
          obtain ⟨iob', hrun, hwrites, hsame⟩ := end_run (s.after g) hfits htext
          refine ⟨⟨s.after g, iob'⟩, ⟨fun a ha => (hsame a ha).trans (hframe a (by omega)), rfl⟩, ?_⟩
          rw [if_pos hfits, Proc.bind_ok hloop]
          refine ⟨?_, hwrites⟩
          rw [← hrun]
          dsimp only
          rw [show iob.ioResid - (iob.ioResid - 2 - (pathText ups).length) - 2 = (pathText ups).length by omega]
        · rw [if_neg (show ¬ (pathText ups).length ≤ iob.ioResid - 2 by omega)] at hend
          refine ⟨_, hout, ?_⟩
          rw [if_neg hfits]
          exact Proc.bind_err hend

/-- `/a` and `/a/b` -/
def twoDirs : State where
  disk ino :=
    if ino = 1 then some { type := sfsTypeDir, nlinks := 3, size := 0, blocks := [], entries := [(dotdot, 1), ([0x61], 2)] }
    else if ino = 2 then some { type := sfsTypeDir, nlinks := 3, size := 0, blocks := [], entries := [(dotdot, 1), ([0x62], 3)] }
    else if ino = 3 then some { type := sfsTypeDir, nlinks := 2, size := 0, blocks := [], entries := [(dotdot, 2)] }
    else none
  devs := []
  refCount n := if n = .sfs 3 then 1 else 0
  openCount _ := 0
  bootfs := none
  faults := []

theorem twoDirs_above : Above twoDirs 3 [(2, [0x62]), (1, [0x61])] :=
  have hroot : Above twoDirs 1 [] := .root ⟨_, rfl, rfl, by decide⟩ ⟨_, rfl, by decide, by decide, by decide⟩
  have ha : Above twoDirs 2 [(1, [0x61])] :=
    .child hroot (by decide) ⟨_, rfl, rfl, by decide⟩ ⟨_, rfl, by decide, by decide, by decide⟩ ⟨_, rfl, by decide, by decide⟩
  .child ha (by decide) ⟨_, rfl, rfl, by decide⟩ ⟨_, rfl, by decide, by decide, by decide⟩ ⟨_, rfl, by decide, by decide⟩

theorem twoDirs_counts : Counts twoDirs := by
  intro n
  refine ⟨Int.le_refl 0, ?_⟩
  show (0 : Int) ≤ if n = .sfs 3 then 1 else 0
  split <;> decide

/-- The call ends like the one over the file system alone, and where that has a value they are related. -/
inductive Tells (Q : β → α → Iobuf → Prop) : Outcome NamePanic Int NameState β → Outcome VfsPanic Int State α → Prop
  | ok {b : β} {a : α} {iob : Iobuf} (t : State) (h : Q b a iob) : Tells Q (.ok b ⟨t, iob⟩) (.ok a t)
  | err (e : Int) (t : State) (iob : Iobuf) : Tells Q (.err e ⟨t, iob⟩) (.err e t)
  | panic (p : VfsPanic) : Tells Q (.panic (.vfs p)) (.panic p)

namespace Tells

variable {γ : Type} {Q : β → α → Iobuf → Prop}

/-- Both call the file system. -/
theorem bind {x : VfsM γ} {k : γ → NameM β} {k' : γ → VfsM α} (h : ∀ c t, Tells Q (k c ⟨t, iob⟩) (k' c t)) :
    Tells Q ((inVfs x >>= k) ⟨s, iob⟩) ((x >>= k') s) := by
  cases hx : x s with
  | ok c t =>
    rw [Proc.bind_ok (inVfs_ok hx), Proc.bind_ok hx]
    exact h c t
  | err e t =>
    rw [Proc.bind_err (inVfs_err hx), Proc.bind_err hx]
    exact .err e t iob
  | panic p =>
    rw [Proc.bind_panic (inVfs_panic hx), Proc.bind_panic hx]
    exact .panic p

theorem attempt {x : VfsM γ} {k : Except Int γ → NameM β} {k' : Except Int γ → VfsM α}
    (h : ∀ r t, Tells Q (k r ⟨t, iob⟩) (k' r t)) :
    Tells Q ((Proc.attempt (inVfs x) >>= k) ⟨s, iob⟩) ((Proc.attempt x >>= k') s) := by
  cases hx : x s with
  | ok c t =>
    rw [Proc.bind_ok (Proc.attempt_ok (inVfs_ok hx)), Proc.bind_ok (Proc.attempt_ok hx)]
    exact h _ t
  | err e t =>
    rw [Proc.bind_ok (Proc.attempt_err (inVfs_err hx)), Proc.bind_ok (Proc.attempt_err hx)]
    exact h _ t
  | panic p =>
    rw [Proc.bind_panic (Proc.attempt_panic (inVfs_panic hx)), Proc.bind_panic (Proc.attempt_panic hx)]
    exact .panic p

/-- What follows two calls that end alike. -/
theorem seq {δ : Type} {Q' : δ → γ → Iobuf → Prop} {x : NameM β} {y : VfsM α} {k : β → NameM δ} {k' : α → VfsM γ}
    (hx : Tells Q (x ⟨s, iob⟩) (y s)) (hk : ∀ b a iob' t, Q b a iob' → Tells Q' (k b ⟨t, iob'⟩) (k' a t)) :
    Tells Q' ((x >>= k) ⟨s, iob⟩) ((y >>= k') s) := by
  rw [Proc.bind_run, Proc.bind_run]
  generalize x ⟨s, iob⟩ = r, y s = r' at hx
  cases hx with
  | ok t h => exact hk _ _ _ t h
  | err e t iob' => exact .err e t iob'
  | panic p => exact .panic p

theorem imp {Q' : β → α → Iobuf → Prop} {r : Outcome NamePanic Int NameState β} {r' : Outcome VfsPanic Int State α}
    (h : Tells Q r r') (hq : ∀ b a iob, Q b a iob → Q' b a iob) : Tells Q' r r' := by
  cases h with
  | ok t h => exact .ok t (hq _ _ _ h)
  | err e t iob => exact .err e t iob
  | panic p => exact .panic p

theorem failed (ino : Nat) (ret : Int) :
    Tells Q (Namefile.failed ino ret ⟨s, iob⟩) ((do vopRefDec (.sfs ino); Proc.fail ret : VfsM α) s) :=
  bind fun _ t => .err ret t iob

theorem check (p : VfsPanic) (c : Prop) [Decidable c] {k : Unit → NameM β} {k' : Unit → VfsM α}
    (h : Tells Q (k () ⟨s, iob⟩) (k' () s)) :
    Tells Q ((Proc.check (.vfs p) c >>= k) ⟨s, iob⟩) ((Proc.check p c >>= k') s) := by
  by_cases hc : c
  · rw [Proc.check_bind_pos hc, Proc.check_bind_pos hc]
    exact h
  · rw [Proc.check_bind_neg hc, Proc.check_bind_neg hc]
    exact .panic p

end Tells

theorem vopRefDec_ends (n : Node) (s : State) : vopRefDec n s = .ok () (s.addRef n (-1)) ∨ ∃ p, vopRefDec n s = .panic p := by
  rw [vopRefDec, Proc.get_bind]
  by_cases hpos : 0 < s.refCount n
  · rw [Proc.check_bind_pos hpos, Proc.modify_bind]
    split
    · exact (vop_cases sfsNode n (s.addRef n (-1))).imp_left And.left
    · exact .inl rfl
  · exact .inr ⟨_, Proc.check_bind_neg hpos ..⟩

/-- The name in the parent is read in one transfer. -/
theorem Tells.findino {Q : β → α → Iobuf → Prop} {k : List UInt8 → NameM β} {k' : List UInt8 → VfsM α}
    (h : ∀ name t, Tells Q (k name ⟨t, iob⟩) (k' name t)) :
    Tells Q ((do
        let r ← Proc.attempt (inVfs (sfsDirentFindino parent ino))
        match r with
        | .error ret => Namefile.failed parent ret
        | .ok name   => k name) ⟨s, iob⟩)
      ((do
        Proc.onErr transfer (vopRefDec (.sfs parent))
        match s.findIno parent ino with
        | none      => do
          vopRefDec (.sfs parent)
          Proc.fail (-eNoEnt)
        | some name => k' name) s) := by
  have htransfer := Spends.transfer (s := s)
  rw [Spends] at htransfer
  cases hsp : spend [eInval] s.faults with
  | mk r f =>
    rw [hsp] at htransfer
    cases r with
    | some e =>
      have hfind : sfsDirentFindino parent ino s = .err (-e) (s.after f) := Proc.bind_err htransfer
      rw [Proc.bind_ok (Proc.attempt_err (inVfs_err hfind))]
      dsimp only
      rw [Namefile.failed]
      -- `failed` and the `onErr` of the other model give back the same reference
      obtain hdec | ⟨p, hdec⟩ := vopRefDec_ends (.sfs parent) (s.after f)
      · have herr : Proc.onErr transfer (vopRefDec (.sfs parent)) s = .err (-e) ((s.after f).addRef (.sfs parent) (-1)) := by
          rw [Proc.onErr, htransfer]
          dsimp only
          rw [hdec]
        rw [Proc.bind_ok (inVfs_ok hdec), Proc.bind_err herr]
        exact .err (-e) _ iob
      · have hstop : Proc.onErr transfer (vopRefDec (.sfs parent)) s = .panic p := by
          rw [Proc.onErr, htransfer]
          dsimp only
          rw [hdec]
        rw [Proc.bind_panic (inVfs_panic hdec), Proc.bind_panic hstop]
        exact .panic p
    | none =>
      have hfind : sfsDirentFindino parent ino s = match s.findIno parent ino with
          | none      => .err (-eNoEnt) (s.after f)
          | some name => .ok name (s.after f) := by
        rw [sfsDirentFindino, Proc.bind_ok htransfer, Proc.get_bind, show (s.after f).findIno = s.findIno from rfl]
        cases s.findIno parent ino with
        | none => rfl
        | some name => rfl
      rw [Proc.bind_ok (Proc.onErr_ok htransfer)]
      cases hname : s.findIno parent ino with
      | none =>
        rw [hname] at hfind
        rw [Proc.bind_ok (Proc.attempt_err (inVfs_err hfind))]
        exact .failed parent (-eNoEnt)
      | some name =>
        rw [hname] at hfind
        rw [Proc.bind_ok (Proc.attempt_ok (inVfs_ok hfind))]
        exact h name (s.after f)

/-- What is before `ptr` at the end is the text that is added to `acc`, which is from `ptr` on. -/
structure Adds (iob : Iobuf) (ptr resid : Nat) (acc : List UInt8) (r : Nat × Nat) (text : List UInt8) (iob' : Iobuf) : Prop where
  start : r.1 + text.length = ptr + acc.length
  room : r.2 + text.length = resid + acc.length
  low : ptr ≤ r.1 + resid
  holds : Holds iob'.ioBase.1 r.1 text
  rest : iob' = onMem iob iob'.ioBase.1

theorem Adds.cons {mem : Bytes} {ptr : Nat} {acc text : List UInt8} {r : Nat × Nat} {iob' : Iobuf}
    (hfits : name.length + 1 ≤ resid) (hptr : resid ≤ ptr) (h : Adds (onMem iob mem) (ptr - (name.length + 1))
      (resid - (name.length + 1)) (name ++ slash :: acc) r text iob') : Adds iob ptr resid acc r text iob' := by
  obtain ⟨hstart, hroom, hlow, hholds, hmem⟩ := h
  rw [List.length_append, List.length_cons] at hstart hroom
  exact ⟨by omega, by omega, by omega, hholds, hmem⟩

theorem loop_tells : ∀ (turns fuel ino : Nat) {ptr : Nat} (resid : Nat) {acc : List UInt8} (iob : Iobuf) (s : State),
    resid < turns → resid < fuel → resid ≤ ptr → Holds iob.ioBase.1 ptr acc →
    Tells (Adds iob ptr resid acc) (sfsNamefileLoop turns ino ptr resid ⟨s, iob⟩) (Vfs.sfsNamefileLoop fuel ino resid acc s)
  | 0, _, _, _, _, _, _, _, h, _, _, _ => absurd h (Nat.not_lt_zero _)
  | _ + 1, 0, _, _, _, _, _, _, _, h, _, _ => absurd h (Nat.not_lt_zero _)
  | turns + 1, fuel + 1, ino, ptr, resid, acc, iob, s, hturns, hfuel, hptr, hacc => by
    rw [sfsNamefileLoop, Vfs.sfsNamefileLoop]
    refine Tells.attempt fun r t => ?_
    cases r with
    | error ret => exact Tells.failed ino ret
    | ok n =>
      cases n with
      | dev i => exact .panic .namefileParent
      | sfs parent =>
        refine Tells.bind fun _ t => ?_
        by_cases hroot : ino = parent
        · rw [if_pos hroot, if_pos hroot]
          refine Tells.bind fun _ t => .ok t ⟨rfl, rfl, Nat.le_add_right .., hacc, rfl⟩
        · rw [if_neg hroot, if_neg hroot, Proc.get_bind, Proc.get_bind]
          refine Tells.check _ _ (Tells.findino fun name t => ?_)
          by_cases hfits : name.length + 1 > resid
          · rw [if_pos hfits, if_pos hfits]
            exact Tells.failed parent (-eNoMem)
          · rw [if_neg hfits, if_neg hfits, modMem, Proc.modify_bind]
            obtain ⟨hput, hrest⟩ := putName_spec (ptr - (name.length + 1)) name iob.ioBase.1
            have hacc' : Holds (putName (ptr - (name.length + 1)) name iob.ioBase.1) (ptr - (name.length + 1))
                (name ++ slash :: acc) := by
              rw [← List.singleton_append, ← List.append_assoc]
              refine holds_append hput (hacc.congr fun j _ => ?_)
              rw [List.length_append, List.length_singleton, show ptr - (name.length + 1) + (name.length + 1) + j = ptr + j by omega]
              exact hrest _ (by omega)
            have hloop := loop_tells turns fuel parent (resid - (name.length + 1)) (onMem iob _) t (by omega) (by omega)
              (by omega) hacc'
            exact hloop.imp fun _ _ _ h => Adds.cons (show name.length + 1 ≤ resid by omega) hptr h

/-- **The buffer holds the text that `vop_namefile` answers**, and the call ends like the one that has it as a value. -/
theorem sfsNamefile_tells (s : State) (ino : Nat) (iob : Iobuf) :
    Tells (fun _ text iob' => ∃ names, text = slash :: names ∧ Writes names iob iob')
      ((do inVfs (vop State.isDir (.sfs ino)); sfsNamefile ino) ⟨s, iob⟩) (Vfs.sfsNamefile ino iob.ioResid s) := by
  refine Tells.bind fun _ t => ?_
  rw [sfsNamefile, Proc.get_bind]
  by_cases hroom : iob.ioResid ≤ 2
  · rw [if_pos hroom, if_pos hroom]
    exact .err (-eNoMem) t iob
  · rw [if_neg hroom, if_neg hroom]
    refine Tells.bind fun _ t => Tells.bind fun _ t => Tells.seq
      (loop_tells iob.ioResid (iob.ioResid - 1) ino (iob.ioResid - 2) iob t (by omega) (by omega)
        (show iob.ioResid - 2 ≤ iob.ioBase.2 + iob.ioResid by omega) nofun) ?_
    rintro ⟨ptr, resid⟩ text iob' t ⟨hstart, hroom', -, hholds, hrest⟩
    rw [List.length_nil] at hroom'
    dsimp only at hroom' hholds ⊢
    obtain ⟨iob'', hrun, hwrites, -⟩ := end_run t (show text.length + 2 ≤ iob.ioResid by omega) hholds
    rw [← hrest] at hrun
    rw [show iob.ioResid - resid - 2 = text.length by omega, hrun]
    exact .ok t ⟨text, rfl, hwrites⟩

end Namefile

end Ucore.Vfs
