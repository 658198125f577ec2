import Ucore.Lib.Simulates
import Ucore.Process.Correctness.ExecFiles

/-!
# `Process.Correctness.ExecLoad` — what `do_execve` loads is what `load_icode` loads

`Process.LoadIcode` knows a program file by its bytes. If that is how the reads through the descriptor turn out (`Reads`), then
loading through it is loading the file: it does the same to the address spaces and to the process, it fails with the same code,
and it stops at the same assertion. The reads turn out like this for a descriptor that is open for reading, on a file system
that answers with the bytes of the file.
-/

namespace Ucore.Execve

open Vfs

variable {I : FilesSys → Prop} {file : ElfFile} {ops : NodeOps} {fd : Nat} {boot : Nat → Pte} {argc : Nat} {kargv : Nat → Bytes}

/-- As long as `I` holds of the table, what arrives of a read through the descriptor is what arrives of the file. No read is
    longer than a page. -/
def Reads (ops : NodeOps) (fd : Nat) (file : ElfFile) (I : FilesSys → Prop) : Prop :=
  ∀ s len offset, I s → 0 < len → len ≤ pgsize → offset < 2 ^ 64 →
    ∃ r t, loadIcodeRead ops fd len (offT offset) s = .ok r t ∧ I t ∧
      r.ret = (Ucore.loadIcodeRead file len offset).2 ∧ r.used = (Ucore.loadIcodeRead file len offset).1 ∧
      ∀ i, i < r.used → r.data i = file.bytes (offset + i)

/-- The machine, and the part of it that `Process.LoadIcode` has -/
def Loads (I : FilesSys → Prop) (s : Sys) (ex : Exec) : Prop := s.ex = ex ∧ I s.files

theorem loads_inExec {α : Type} (x : ExecM α) : Simulates (Loads I) .exec (inExec x) x :=
  .within x (fun _ _ h => h.1) fun _ _ _ h => ⟨rfl, h.2⟩

/-- A read through the descriptor -/
theorem Reads.step (h : Reads ops fd file I) {len offset : Nat} (hpos : 0 < len) (hlen : len ≤ pgsize) (hoff : offset < 2 ^ 64) (s : Sys)
    (ex : Exec) (hs : Loads I s ex) : ∃ r t, inFiles (loadIcodeRead ops fd len (offT offset)) s = .ok r t ∧ Loads I t ex ∧
      (r.ret = (Ucore.loadIcodeRead file len offset).2 ∧ r.used = (Ucore.loadIcodeRead file len offset).1 ∧
        ∀ i, i < r.used → r.data i = file.bytes (offset + i)) := by
  obtain ⟨r, t, hrun, hI, hr⟩ := h s.files len offset hs.2 hpos hlen hoff
  exact ⟨r, { s with files := t }, Proc.within_eq_ok.mpr ⟨t, hrun, rfl⟩, ⟨hs.1, hI⟩, hr⟩

/-- Of a read that goes through, all has arrived. -/
theorem loadIcodeRead_all {len offset : Nat} (h : (Ucore.loadIcodeRead file len offset).2 = 0) :
    (Ucore.loadIcodeRead file len offset).1 = len := by
  unfold Ucore.loadIcodeRead at h ⊢
  dsimp only at h ⊢
  split at h
  · next he => exact he
  · split at h
    · omega
    · exact absurd h (by decide)

theorem loads_readHdr {α : Type} (h : Reads ops fd file I) (hdr : Bytes → α) {len offset : Nat} (hpos : 0 < len) (hlen : len ≤ pgsize)
    (hoff : offset < 2 ^ 64) (hhdr : ∀ b b' : Bytes, (∀ i, i < len → b i = b' i) → hdr b = hdr b') :
    Simulates (Loads I) .exec (readHdr ops fd hdr len offset) (Ucore.readHdr file hdr len offset) := by
  refine .step _ (h.step hpos hlen hoff) fun r hr => ?_
  obtain ⟨hret, hused, hdata⟩ := hr
  unfold Ucore.readHdr
  dsimp only
  rw [← hret]
  split
  · exact .of_fail _
  · next h0 =>
    have hall : r.used = len := hused.trans (loadIcodeRead_all (hret ▸ not_not.mp h0))
    rw [hhdr r.data (fun i => file.bytes (offset + i)) fun i hi => hdata i (hall.symm ▸ hi)]
    exact .of_pure _

theorem elfHdr_congr {b b' : Bytes} (h : ∀ i, i < elfHdrSize → b i = b' i) : elfHdr b = elfHdr b' := by
  have hle : ∀ a n, a + n ≤ 64 → getLe b a n = getLe b' a n := fun a n ha =>
    getLe_congr fun i _ hi => h i (Nat.lt_of_lt_of_le hi ha)
  unfold elfHdr
  rw [hle 0 4 (by decide), hle 24 8 (by decide), hle 32 8 (by decide), hle 56 2 (by decide)]

theorem progHdr_congr {b b' : Bytes} (h : ∀ i, i < progHdrSize → b i = b' i) : progHdr b = progHdr b' := by
  have hle : ∀ a n, a + n ≤ 56 → getLe b a n = getLe b' a n := fun a n ha =>
    getLe_congr fun i _ hi => h i (Nat.lt_of_lt_of_le hi ha)
  unfold progHdr
  rw [hle 0 4 (by decide), hle 4 4 (by decide), hle 8 8 (by decide), hle 16 8 (by decide), hle 32 8 (by decide),
    hle 40 8 (by decide)]

theorem copyToPage_congr {page off len : Nat} {src src' : Bytes} (h : ∀ i, i < len → src i = src' i) :
    copyToPage page off src 0 len = copyToPage page off src' 0 len := by
  have hmem : ∀ dst, memcpy dst off src 0 len = memcpy dst off src' 0 len := by
    intro dst
    funext i
    by_cases hi : off ≤ i ∧ i < off + len
    · rw [memcpy_in hi, memcpy_in hi]
      exact h _ (by omega)
    · rw [memcpy_out hi, memcpy_out hi]
  unfold copyToPage
  simp only [hmem]

/-- `la` is the page of `start` as long as there is something to load: no read is empty. -/
theorem loads_loadFile (h : Reads ops fd file I) (ph : ProgHdr) (pgdir fuel : Nat) : ∀ start la, la ≤ start →
    (start < ph.stop → start < la + pgsize) →
    Simulates (Loads I) .exec (loadFile ops fd ph pgdir fuel start la) (Ucore.loadFile file ph pgdir fuel start la) := by
  induction fuel with
  | zero => exact fun _ _ _ _ => .of_stop ExecPanic.loops
  | succ fuel ih =>
    intro start la hle hpage
    unfold loadFile Ucore.loadFile
    by_cases hlt : start < ph.stop
    · rw [if_pos hlt, if_pos hlt]
      refine .bind (loads_inExec _) fun page => ?_
      cases page with
      | none => exact .of_fail _
      | some page =>
        have hin := hpage hlt
        generalize hsize : min (ph.stop - start) (pgsize - (start - la)) = size
        have hpg : pgsize = 4096 := rfl
        refine .step _ (h.step (by omega) (by omega) (Nat.mod_lt _ (by decide))) fun r hr => ?_
        obtain ⟨hret, hused, hdata⟩ := hr
        dsimp only
        rw [hret, copyToPage_congr hdata, hused]
        refine .bind (loads_inExec _) fun _ => .ite (.of_fail _) (ih _ _ ?_ ?_)
        · split <;> omega
        · split <;> omega
    · rw [if_neg hlt, if_neg hlt]
      exact .of_pure _

theorem loads_loadSegment (h : Reads ops fd file I) (m : Nat) (ph : ProgHdr) :
    Simulates (Loads I) .exec (loadSegment ops fd m ph) (Ucore.loadSegment file m ph) := by
  refine .ite (.of_fail _) (.bind (loads_inExec _) fun _ => .of_get fun s ex hs => ?_)
  rw [hs.1]
  have hdown : rounddown ph.pVa pgsize = ph.pVa - ph.pVa % pgsize := rfl
  have hmod : ph.pVa % pgsize < pgsize := Nat.mod_lt _ (by decide)
  exact .bind (loads_loadFile h ph _ _ _ _ (by omega) fun _ => by omega) fun start => loads_inExec _

theorem loads_loadSegments (h : Reads ops fd file I) (m phoff n : Nat) : ∀ i,
    Simulates (Loads I) .exec (loadSegments ops fd m phoff n i) (Ucore.loadSegments file m phoff n i) := by
  induction n with
  | zero => exact fun _ => .of_pure ()
  | succ n ih =>
    intro i
    refine .bind (loads_readHdr h progHdr (by decide) (by decide) (Nat.mod_lt _ (by decide)) fun _ _ => progHdr_congr) fun ph => ?_
    refine .ite (ih _) ?_
    exact .bind (loads_loadSegment h m ph) fun _ => ih _

/-- **Loading through a descriptor** is loading the file. -/
theorem loads_loadIcode (h : Reads ops fd file I) :
    Simulates (Loads I) .exec (loadIcode boot ops fd argc kargv) (Ucore.loadIcode boot file argc kargv) := by
  refine .bind (.of_check ExecPanic.argNum _) fun _ => .bind (loads_inExec _) fun m => .onErr ?_ (loads_inExec _)
  refine .bind (loads_readHdr h elfHdr (by decide) (by decide) (by decide) fun _ _ => elfHdr_congr) fun elf => .ite (.of_fail _) ?_
  exact .bind (loads_loadSegments h m _ _ _) fun _ => loads_inExec _

/-- **`do_execve` once the program file is open**: the program starts if and only if `load_icode` loads the file, and it finds what
    `load_icode` leaves. -/
theorem execFile_starts (h : Reads ops fd file I) {s : Sys} (hs : I s.files) {name : Bytes} {kargs : List Bytes} {ex : Exec} :
    (∃ t, execFile boot ops fd argc name kargs s = .ok .done t ∧ t.ex = ex) ↔
      ∃ ex₁, leaveMm s.ex = .ok () ex₁ ∧ Ucore.loadIcode boot file argc (fun i => kargs.getD i fun _ => 0) ex₁ = .ok () ex := by
  have hload : Simulates (Loads I) .exec (loadIcode boot ops fd argc fun i => kargs.getD i fun _ => 0)
      (Ucore.loadIcode boot file argc fun i => kargs.getD i fun _ => 0) := loads_loadIcode h
  constructor
  · rintro ⟨t, hrun, rfl⟩
    obtain ⟨_, s₁, hleave, h₁⟩ := Proc.bind_eq_ok.mp hrun
    obtain ⟨ex₁, hleave', rfl⟩ := Proc.within_eq_ok.mp hleave
    obtain ⟨r, s₂, hattempt, h₂⟩ := Proc.bind_eq_ok.mp h₁
    cases r with
    | error e => cases h₂
    | ok u =>
      cases h₂
      obtain ⟨ex₂, hfile, hex, -⟩ := hload.ok (s := { s with ex := ex₁ }) (t := ex₁) ⟨rfl, hs⟩ (Proc.attempt_eq_ok.mp hattempt)
      exact ⟨ex₁, hleave', hex ▸ hfile⟩
  · rintro ⟨ex₁, hleave, hrun⟩
    obtain ⟨s₂, hrun', hex, -⟩ := hload.ok_of (s := { s with ex := ex₁ }) ⟨rfl, hs⟩ hrun
    refine ⟨{ s₂ with name := fun i => if i < procNameLen then name i else 0 }, ?_, hex⟩
    have hleave' : inExec leaveMm s = .ok () { s with ex := ex₁ } := Proc.within_eq_ok.mpr ⟨ex₁, hleave, rfl⟩
    rw [execFile, Proc.bind_ok hleave', Proc.bind_ok (Proc.attempt_ok hrun')]
    rfl

/-! ## A file system that answers with the bytes of the file -/

/-- A file of which all arrives that is asked for and there. -/
def plainFile (bytes : Bytes) (size : Nat) (h : size < 2 ^ 63) : ElfFile where
  bytes := bytes
  size := size
  got offset len := min len (size - offset)
  err offset _ := if offset < 2 ^ 63 then 0 else -eInval
  size_lt := h
  got_le _ _ := Nat.min_le_right _ _

/-- The descriptor is open for reading on something that can be read, and no allocation is going to fail. -/
structure Readable (fd : Nat) (s : FilesSys) : Prop where
  lt : fd < filesStructNentry
  count : 0 < s.filesp.filesCount
  opened : (s.file fd).status = .opened
  readable : (s.file fd).readable = true
  held : 0 < (s.file fd).openCount
  node : ∃ n, (s.file fd).node = some n ∧ notDir s.fs n = true ∧ 0 ≤ s.fs.openCount n ∧
    s.fs.openCount n ≤ s.fs.refCount n ∧ s.fs.refCount n < maxInodeCount
  faults : s.fs.faults = []

/-- The slot with another position -/
def setPos (s : FilesSys) (fd : Nat) (pos : Int) : FilesSys := s.setFile fd { s.file fd with pos := pos }

@[simp] theorem setPos_file (s : FilesSys) (fd : Nat) (pos : Int) : (setPos s fd pos).file fd = { s.file fd with pos := pos } := by
  simp [setPos]

theorem setPos_same (s : FilesSys) (fd : Nat) : setPos s fd (s.file fd).pos = s := by
  have hfile : Function.update s.filesp.fdArray fd (s.file fd) = s.filesp.fdArray := Function.update_eq_self ..
  simp [setPos, FilesSys.setFile, hfile]

@[simp] theorem setPos_setPos (s : FilesSys) (fd : Nat) (p q : Int) : setPos (setPos s fd p) fd q = setPos s fd q := by
  rw [setPos, setPos_file, setPos, setPos, FilesSys.setFile_setFile]

namespace Readable

variable {s : FilesSys}

theorem setPos (h : Readable fd s) (pos : Int) : Readable fd (setPos s fd pos) := by
  refine ⟨h.lt, h.count, ?_, ?_, ?_, ?_, h.faults⟩
  · simp [h.opened]
  · simp [h.readable]
  · simp [h.held]
  · obtain ⟨n, hn, hrest⟩ := h.node
    exact ⟨n, by simp [hn], hrest⟩

theorem fd2file_run (h : Readable fd s) : Vfs.fd2file fd s = .ok (s.file fd) s := by
  have hget : getFdArray s = .ok () s := Proc.check_run_pos h.count s
  rw [Vfs.fd2file, if_pos h.lt, Proc.bind_ok hget, getFile_bind, if_pos h.opened]
  rfl

/-- The slot with another position, while it is held -/
def heldAt (s : FilesSys) (fd : Nat) (pos : Int) : FilesSys :=
  s.setFile fd { s.file fd with pos := pos, openCount := (s.file fd).openCount + 1 }

theorem acquire_run (h : Readable fd s) : fdArrayAcquire fd s = .ok () (heldAt s fd (s.file fd).pos) := by
  rw [fdArrayAcquire, getFile_bind, Proc.check_bind_pos h.opened]
  rfl

theorem release_run (h : Readable fd s) (pos : Int) : fdArrayRelease fd (heldAt s fd pos) = .ok () (Execve.setPos s fd pos) := by
  have hheld : 0 < (s.file fd).openCount := h.held
  have hpos : 0 < (s.file fd).openCount + 1 := by omega
  have hne : ¬ (s.file fd).openCount + 1 - 1 = 0 := by omega
  rw [fdArrayRelease, getFile_bind, heldAt, FilesSys.file_setFile_self, Proc.check_bind_pos (.inl h.opened),
    Proc.check_bind_pos hpos, Vfs.setFile, Proc.modify_bind, FilesSys.setFile_setFile, if_neg hne]
  simp [Execve.setPos]

theorem vopNode_run {α : Type} {op : State → Node → α × (Nat → Option DiskNode) × List Bool} {a : α} (h : Readable fd s)
    (hop : ∀ n, op s.fs n = (a, s.fs.disk, s.fs.faults)) (pos : Int) :
    vopNode (s.file fd).node op (heldAt s fd pos) = .ok a (heldAt s fd pos) := by
  obtain ⟨n, hn, hdir, h0, hle, hroom⟩ := h.node
  have hvop : inVfs (vop notDir n) (heldAt s fd pos) = .ok () (heldAt s fd pos) := Proc.zoom_ok (vop_ok hdir h0 hle hroom)
  rw [hn, vopNode, Proc.bind_ok hvop, Proc.get_bind]
  simp only [heldAt, FilesSys.fs_setFile, hop]
  rfl

theorem fileSeek_run (file : ElfFile) (h : Readable fd s) (pos : Int) :
    Vfs.fileSeek (nodesOf file) fd pos s = if pos < 0 then .err (-eInval) s else .ok () (Execve.setPos s fd pos) := by
  have hop : ∀ n, (nodesOf file).tryseek s.fs n pos = (if pos < 0 then -eInval else 0, s.fs.disk, s.fs.faults) := fun _ => rfl
  rw [Vfs.fileSeek, Proc.bind_ok h.fd2file_run, Proc.bind_ok h.acquire_run, Proc.bind_ok (h.vopNode_run hop _), seekTo]
  by_cases hneg : pos < 0
  · have hret : ¬ -eInval = (0 : Int) := by decide
    simp only [if_pos hneg, if_neg hret]
    rw [Proc.bind_ok (show (getFile fd >>= fun _ => pure ()) (heldAt s fd (s.file fd).pos) = .ok () _ from rfl),
      Proc.bind_ok (h.release_run _)]
    show Outcome.err (-eInval) (Execve.setPos s fd (s.file fd).pos) = .err (-eInval) s
    rw [setPos_same]
  · simp only [if_neg hneg, if_true]
    have hset : (getFile fd >>= fun file => Vfs.setFile fd { file with pos := pos }) (heldAt s fd (s.file fd).pos) =
        .ok () (heldAt s fd pos) := by
      rw [getFile_bind]
      simp [heldAt, Vfs.setFile]
    rw [Proc.bind_ok hset, Proc.bind_ok (h.release_run _)]
    rfl

/-- A read at a position in the file, or behind it -/
theorem fileRead_run (h : Readable fd s) {pos : Nat} (hpos : (s.file fd).pos = pos) (len : Nat) :
    Vfs.fileRead (nodesOf file) fd len s =
      .ok { ret := 0, used := min (file.got pos len) len, data := fun i => file.bytes (pos + i) }
        (Execve.setPos s fd (pos + min (file.got pos len) len : Nat)) := by
  have hop : ∀ n, (nodesOf file).read s.fs n (s.file fd).pos len =
      ({ ret := 0, used := min (file.got pos len) len, data := fun i => file.bytes (pos + i) }, s.fs.disk, s.fs.faults) := by
    intro n
    rw [hpos]
    rfl
  have hread : ¬ (s.file fd).readable = false := by simp [h.readable]
  rw [Vfs.fileRead, Proc.bind_ok (Proc.attempt_ok h.fd2file_run)]
  dsimp only
  rw [if_neg hread, Proc.bind_ok h.acquire_run, Proc.bind_ok (h.vopNode_run hop _)]
  have hadv : ∀ used : Nat, advance fd used (heldAt s fd (s.file fd).pos) = .ok () (heldAt s fd (pos + used : Nat)) := by
    intro used
    rw [advance, getFile_bind]
    simp [heldAt, Vfs.setFile, h.opened, hpos]
  rw [Proc.bind_ok (hadv _), Proc.bind_ok (h.release_run _)]
  rfl

end Readable

variable {bytes : Bytes} {size : Nat}

/-- The loop reads what there is, in one round or in many. -/
theorem sysfileReadLoop_run (hsize : size < 2 ^ 63) (fuel : Nat) : ∀ {s : FilesSys} {pos : Nat} (len copied : Nat) (base : Bytes), Readable fd s →
    (s.file fd).pos = pos → len < fuel →
    ∃ data, sysfileReadLoop (nodesOf (plainFile bytes size hsize)) fd fuel len copied base s =
        .ok { ret := 0, used := copied + min len (size - pos), data := data } (setPos s fd (pos + min len (size - pos) : Nat)) ∧
      ∀ i, data i = if copied ≤ i ∧ i < copied + min len (size - pos) then bytes (pos + (i - copied)) else base i := by
  induction fuel with
  | zero => exact fun _ _ _ _ _ hlt => absurd hlt (Nat.not_lt_zero _)
  | succ fuel ih =>
    intro s pos len copied base h hpos hlt
    unfold sysfileReadLoop
    by_cases hlen : len = 0
    · subst hlen
      refine ⟨base, ?_, fun i => (if_neg (by omega)).symm⟩
      rw [if_neg (not_not_intro rfl), Nat.zero_min, Nat.add_zero, Nat.add_zero, ← hpos, setPos_same]
      rfl
    · generalize hu : min (min iobufSize len) (size - pos) = u
      have hio : iobufSize = 4096 := rfl
      have hread : Vfs.fileRead (nodesOf (plainFile bytes size hsize)) fd (min iobufSize len) s =
          .ok { ret := 0, used := u, data := fun i => bytes (pos + i) } (setPos s fd (pos + u : Nat)) := by
        have hgot : min ((plainFile bytes size hsize).got pos (min iobufSize len)) (min iobufSize len) = u := by
          show min (min (min iobufSize len) (size - pos)) (min iobufSize len) = u
          omega
        rw [h.fileRead_run hpos, hgot]
        rfl
      have hcopied : ∀ i, memcpy base copied (fun i => bytes (pos + i)) 0 u i =
          if copied ≤ i ∧ i < copied + u then bytes (pos + (i - copied)) else base i := by
        intro i
        split
        · next hi => rw [memcpy_in hi, Nat.zero_add]
        · next hi => exact memcpy_out hi
      have hle : u ≤ len := by omega
      rw [if_pos hlen, Proc.bind_ok hread, Proc.check_bind_pos hle]
      dsimp only
      by_cases hzero : u = 0
      · -- nothing more arrives
        have hnone : min len (size - pos) = u := by omega
        rw [if_pos (.inr hzero), hnone]
        exact ⟨_, rfl, hcopied⟩
      · have hsum : u + min (len - u) (size - (pos + u)) = min len (size - pos) := by omega
        rw [if_neg (by simp [hzero])]
        have hpos' : ((setPos s fd (pos + u : Nat)).file fd).pos = (pos + u : Nat) := by rw [setPos_file]
        obtain ⟨data, hrun, hdata⟩ := ih (len - u) (copied + u) (memcpy base copied (fun i => bytes (pos + i)) 0 u)
          (h.setPos (pos + u : Nat)) hpos' (by omega)
        refine ⟨data, ?_, fun i => ?_⟩
        · rw [hrun, setPos_setPos, Nat.add_assoc, Nat.add_assoc, hsum]
        · rw [hdata, hcopied]
          by_cases hlate : copied + u ≤ i ∧ i < copied + u + min (len - u) (size - (pos + u))
          · have hsub : pos + u + (i - (copied + u)) = pos + (i - copied) := by omega
            rw [if_pos hlate, if_pos (by omega), hsub]
          · rw [if_neg hlate]
            by_cases hearly : copied ≤ i ∧ i < copied + u
            · rw [if_pos hearly, if_pos (by omega)]
            · rw [if_neg hearly, if_neg (by omega)]

theorem Readable.sysfileRead_run (hsize : size < 2 ^ 63) {s : FilesSys} {pos : Nat} (h : Readable fd s) (hpos : (s.file fd).pos = pos) (len : Nat) :
    ∃ data, Vfs.sysfileRead (nodesOf (plainFile bytes size hsize)) fd len s =
        .ok { ret := (min len (size - pos) : Nat), used := min len (size - pos), data := data }
          (Execve.setPos s fd (pos + min len (size - pos) : Nat)) ∧
      ∀ i, i < min len (size - pos) → data i = bytes (pos + i) := by
  unfold Vfs.sysfileRead
  by_cases hlen : len = 0
  · subst hlen
    refine ⟨fun _ => 0, ?_, fun i hi => absurd hi (by omega)⟩
    rw [if_pos rfl, Nat.zero_min, Nat.add_zero, ← hpos, setPos_same]
    rfl
  · have htest : fileTestfd fd true false s = .ok true s := by
      rw [fileTestfd, Proc.bind_ok (Proc.attempt_ok h.fd2file_run)]
      simp [h.readable]
    have halloc : inVfs Vfs.kmalloc s = .ok () s := by
      have hk : Vfs.kmalloc s.fs = .ok () s.fs := by
        rw [Vfs.kmalloc, mayFail, Proc.get_bind, h.faults]
        rfl
      exact Proc.zoom_ok hk
    obtain ⟨data, hrun, hdata⟩ := sysfileReadLoop_run hsize (len + 1) len 0 (fun _ => 0) h hpos (Nat.lt_succ_self len)
    rw [Nat.zero_add] at hrun
    rw [if_neg hlen, Proc.bind_ok htest, if_neg (by decide), Proc.bind_ok halloc, Proc.bind_ok hrun]
    refine ⟨data, ?_, fun i hi => ?_⟩
    · have hret : (if min len (size - pos) ≠ 0 then ((min len (size - pos) : Nat) : Int) else 0) = (min len (size - pos) : Nat) := by
        split <;> omega
      dsimp only
      rw [hret]
      rfl
    · rw [hdata, if_pos (by omega), Nat.sub_zero]

theorem plainFile_read (bytes : Bytes) (size : Nat) (hsize : size < 2 ^ 63) (len offset : Nat) :
    (Ucore.loadIcodeRead (plainFile bytes size hsize) len offset).1 = min len (size - offset) ∧
    (Ucore.loadIcodeRead (plainFile bytes size hsize) len offset).2 = if min len (size - offset) = len then 0
      else if min len (size - offset) = 0 ∧ (if offset < 2 ^ 63 then 0 else -eInval) < 0 then
        if offset < 2 ^ 63 then 0 else -eInval
      else -1 := by
  have hgot : min ((plainFile bytes size hsize).got offset len) len = min len (size - offset) := by
    show min (min len (size - offset)) len = _
    omega
  have herr : (plainFile bytes size hsize).err offset len = if offset < 2 ^ 63 then 0 else -eInval := rfl
  unfold Ucore.loadIcodeRead
  dsimp only
  rw [hgot, herr]
  exact ⟨rfl, rfl⟩

/-- **A descriptor that is open for reading** reads the file. -/
theorem reads_plainFile (hsize : size < 2 ^ 63) : Reads (nodesOf (plainFile bytes size hsize)) fd (plainFile bytes size hsize) (Readable fd) := by
  intro s len offset h hpos hlen hoff
  obtain ⟨hused, hret⟩ := plainFile_read bytes size hsize len offset
  have hseek := Readable.fileSeek_run (plainFile bytes size hsize) h (offT offset)
  unfold loadIcodeRead
  by_cases hbig : offset < 2 ^ 63
  · have hofft : offT offset = offset := by
      unfold offT
      rw [Int.bmod_eq_of_le (by omega) (by omega)]
    rw [hofft, if_neg (by omega)] at hseek
    obtain ⟨data, hrun, hdata⟩ := (h.setPos offset).sysfileRead_run hsize (by rw [setPos_file]) len
    rw [hofft, Proc.bind_ok (Proc.attempt_ok hseek)]
    dsimp only
    rw [Proc.bind_ok (Proc.attempt_ok hrun), setPos_setPos]
    refine ⟨_, _, rfl, h.setPos _, ?_, hused.symm, hdata⟩
    rw [hret, if_pos hbig]
    dsimp only
    by_cases hall : min len (size - offset) = len
    · rw [if_pos hall, if_pos (by omega)]
    · rw [if_neg hall, if_neg (by omega), if_neg (by omega), if_neg (by omega)]
  · have hneg : offT offset < 0 := by
      unfold offT
      rw [Int.bmod_def]
      split <;> omega
    have hnone : min len (size - offset) = 0 := by omega
    rw [if_pos hneg] at hseek
    rw [Proc.bind_ok (Proc.attempt_err hseek)]
    refine ⟨_, _, rfl, h, ?_, ?_, fun i hi => absurd hi (Nat.not_lt_zero i)⟩
    · rw [hret, hnone, if_neg hbig, if_neg (by omega), if_pos ⟨rfl, by decide⟩]
    · rw [hused, hnone]

/-- So `do_execve` starts the program that the descriptor is open on. -/
theorem execFile_plainFile (hsize : size < 2 ^ 63) {s : Sys} (hs : Readable fd s.files) {name : Bytes} {kargs : List Bytes} {ex : Exec} :
    (∃ t, execFile boot (nodesOf (plainFile bytes size hsize)) fd argc name kargs s = .ok .done t ∧ t.ex = ex) ↔
      ∃ ex₁, leaveMm s.ex = .ok () ex₁ ∧
        Ucore.loadIcode boot (plainFile bytes size hsize) argc (fun i => kargs.getD i fun _ => 0) ex₁ = .ok () ex :=
  execFile_starts (reads_plainFile hsize) hs

end Ucore.Execve
