import Ucore.Process.Correctness.LoadArgs

/-!
# `Process.Correctness.LoadSpace` — the address space that `load_icode` leaves behind

If `load_icode` returns, the user pages are those of the segments and the four of the stack, and at the addresses of `loadImage`
a process reads the bytes of `loadImage`. At the other addresses of these pages it reads what the page held when it was free.
-/

namespace Ucore

open PageMem Known

variable {Q : Nat → Perm → Prop} {x : Nat → Bytes} {L N : Nat → Prop} {m a argc sp entry : Nat} {k : Known} {b : UInt8}
  {s s' : Exec} {file : ElfFile} {kargv : Nat → Bytes} {boot : Nat → Pte}

/-- What the process reads at the address `a` -/
def Exec.user (s : Exec) (a : Nat) : Option UInt8 :=
  if a < userTop then (s.vm.mem.maps s.pgdir (a / pgsize)).map fun p => s.vm.mem.data p (a % pgsize) else none

/-- The page table entry for the address `a` -/
def Exec.pte (s : Exec) (a : Nat) : Pte := if a < userTop then s.vm.mem.leaf s.pgdir (a / pgsize) else .zero

/-- No free page is referenced. -/
def Exec.Ready (s : Exec) : Prop := ∀ p ∈ s.vm.mem.free, s.vm.mem.ref p = 0

/-! ## Reading -/

namespace ProgLoaded

theorem addr_lt (h : ProgLoaded Q x L m N k s.vm) (hN : N (a / pgsize)) : a < userTop := by
  have hn : a / 2 ^ 12 < 2 ^ 19 := h.user _ hN
  show a < 2 ^ 31
  omega

theorem user_none (h : ProgLoaded Q x L m N k s.vm) (hs : s' = switchTo m argc sp entry s) (hN : ¬ N (a / pgsize)) :
    s'.user a = none := by
  rw [hs, Exec.user]
  split
  · next hlt =>
    have hmaps : s.vm.mem.maps (s.vm.mm m).pgdir (a / pgsize) = none := by
      by_contra hne
      exact hN ((h.mapped _ (page_lt hlt)).mp hne)
    show (s.vm.mem.maps (s.vm.mm m).pgdir (a / pgsize)).map _ = none
    rw [hmaps]
    rfl
  · rfl

/-- A page that is mapped is read. -/
theorem user_some (h : ProgLoaded Q x L m N k s.vm) (hs : s' = switchTo m argc sp entry s) (hN : N (a / pgsize)) :
    ∃ p, ¬ L p ∧ s'.vm.mem.maps s'.pgdir (a / pgsize) = some p ∧ s'.user a = some ((k a).getD (x p (a % pgsize))) := by
  obtain ⟨p, hp⟩ := h.page hN
  have hn := h.user _ hN
  have hpos : a / pgsize * pgsize + a % pgsize = a := by
    rw [Nat.mul_comm]
    exact Nat.div_add_mod a pgsize
  have hbyte := h.bytes _ p (a % pgsize) hn (Nat.mod_lt _ (by decide)) hp
  rw [hpos] at hbyte
  subst hs
  refine ⟨p, h.not_lost hn hp, hp, ?_⟩
  rw [Exec.user, if_pos (h.addr_lt hN)]
  show (s.vm.mem.maps (s.vm.mm m).pgdir (a / pgsize)).map _ = _
  rw [hp, ← hbyte]
  rfl

theorem user_known (h : ProgLoaded Q x L m N k s.vm) (hs : s' = switchTo m argc sp entry s) (hk : k a = some b) :
    s'.user a = some b := by
  have hN : N (a / pgsize) := h.within a (by rw [hk]; exact Option.some_ne_none b)
  obtain ⟨p, -, -, huser⟩ := h.user_some hs hN
  rw [hk] at huser
  exact huser

end ProgLoaded

/-! ## The new address space -/

theorem mmNew_ok {s s' : Vm} (h : mmNew boot s = .ok m s') : s'.mem.data = s.mem.data ∧ (s'.mm m).mmapList = [] := by
  rcases mmNew_cases boot s with ⟨-, hrun | ⟨q, -, hrun⟩⟩ | ⟨-, q, p, -, -, hrun⟩
  · rw [hrun] at h
    cases h
  · rw [hrun] at h
    cases h
  · rw [hrun] at h
    cases h
    refine ⟨rfl, ?_⟩
    show (Function.update (Function.update s.mm m Mm.empty) m { Mm.empty with pgdir := p } m).mmapList = []
    rw [Function.update_self]
    rfl

/-- **An address space to begin with**: no page is mapped. -/
theorem mmNew_loaded {s s' : Vm} (hboot : ∀ i < 2, (boot i).v = false) (hready : ∀ p ∈ s.mem.free, s.mem.ref p = 0)
    (hrun : mmNew boot s = .ok m s') :
    ProgLoaded Q s.mem.data (fun p => p ∉ s.mem.free) m (fun _ => False) nothing s' := by
  have hcount : ∀ p, s.mem.count ∅ p = 0 := fun p => count_eq_zero.mpr fun d hd => absurd hd (Finset.notMem_empty d)
  have htable : ∀ p, ¬ s.mem.IsTable ∅ p := by
    rintro p ⟨d, hd, -⟩
    exact absurd hd (Finset.notMem_empty d)
  have hsound : Sound s.mem (s.dirs ∅) fun p => p ∉ s.mem.free := by
    refine ⟨⟨fun d hd => absurd hd (Finset.notMem_empty d), fun p hp => absurd hp (htable p),
      fun d hd => absurd hd (Finset.notMem_empty d)⟩, fun p _ hp => ?_, fun p hp => ⟨hp, hcount p⟩⟩
    rw [hready p (not_not.mp hp), show s.dirs ∅ = ∅ from rfl, hcount p]
    rfl
  have hstart : s.Inv ∅ fun p => p ∉ s.mem.free :=
    ⟨hsound, fun m hm => absurd hm (Finset.notMem_empty m), fun m hm => absurd hm (Finset.notMem_empty m),
      fun m hm => absurd hm (Finset.notMem_empty m), fun m hm => absurd hm (Finset.notMem_empty m),
      fun m hm => absurd hm (Finset.notMem_empty m)⟩
  have hinv : s'.Inv {m} fun p => p ∉ s.mem.free := (mmNew_inv hstart hboot).of_ok hrun
  obtain ⟨hdata, hlist⟩ := mmNew_ok hrun
  -- there are no areas, so there are no pages
  have hnone : ∀ n, n < userPages → s'.mem.maps (s'.mm m).pgdir n = none := by
    intro n hn
    by_contra hne
    obtain ⟨v, hv, -⟩ := hinv.inside m (Finset.mem_singleton_self m) n hn hne
    rw [hlist] at hv
    exact absurd hv List.not_mem_nil
  refine ⟨hinv, fun n hn => hn.elim, fun n hn => hn.elim, fun n hn => ?_, fun n n' p hn _ hp => ?_, fun p _ => ?_, fun n p i hn _ hp => ?_,
    fun a ha => absurd rfl ha⟩
  · rw [hnone n hn]
    exact iff_of_false (fun hne => hne rfl) id
  · rw [hnone n hn] at hp
    cases hp
  · rw [hdata]
  · rw [hnone n hn] at hp
    cases hp

/-! ## The whole run -/

/-- The user pages after `load_icode` -/
def LoadPages (file : ElfFile) (n : Nat) : Prop := SegPages file.segments n ∨ StackPages n

/-- Their permissions -/
def LoadPerms (file : ElfFile) (n : Nat) (e : Perm) : Prop :=
  (∃ ph ∈ file.segments, ph.Pages n ∧ e = ph.perm) ∨ StackPages n ∧ e = pteUser

/-- The bytes that `load_icode` writes -/
def loadImage (file : ElfFile) (argc : Nat) (kargv : Nat → Bytes) : Known :=
  stackImage argc kargv (segsImage file.bytes file.segments nothing)

/-- The arguments are written to the stack only. -/
theorem loadImage_out (hargc : argc ≤ execMaxArgNum) (hfit : ArgsFit argc kargv) (ha : ¬ StackPages (a / pgsize)) :
    loadImage file argc kargv a = segsImage file.bytes file.segments nothing a := by
  obtain ⟨-, hend, -, -⟩ := argsTop_bounds hargc kargv
  have hlow : 0x7fffc000 ≤ argsTop argc kargv := hfit
  rw [stackPages_iff] at ha
  refine stackImage_out hend ?_
  show a < argsTop argc kargv ∨ 0x80000000 ≤ a
  omega

theorem loadProgram_ok {elf : ElfHdr} (h : ProgLoaded (LoadPerms file) x L m (fun _ => False) nothing s.vm)
    (hw : ∀ ph ∈ file.segments, ph.Filled ∨ ¬ ph.Wraps) (hrun : loadProgram file m s = .ok elf s') :
    elf = elfHdr file.bytes ∧ ProgLoaded (LoadPerms file) x L m (LoadPages file) (segsImage file.bytes file.segments nothing) s'.vm ∧
      SegsLoaded file.segments ∧ Within pgsize (SegPages file.segments) (segsImage file.bytes file.segments nothing) ∧
      (∀ ph ∈ file.segments, ∀ n, ustackTop - ustackSize ≤ n * pgsize → n * pgsize < ustackTop → ¬ ph.AreaPages n) ∧
      (Full pgsize (SegPages file.segments) (segsImage file.bytes file.segments nothing) ↔ ∀ ph ∈ file.segments, ph.Filled) := by
  rw [loadProgram] at hrun
  obtain ⟨elf', s1, hhdr, hgo⟩ := Proc.bind_eq_ok.mp hrun
  obtain ⟨hbytes, rfl⟩ := readHdr_ok hhdr
  have helf : elf' = elfHdr file.bytes := by
    rw [hbytes]
    simp only [Nat.zero_add]
  split at hgo
  · cases hgo
  · obtain ⟨_, s2, hsegs, hgo⟩ := Proc.bind_eq_ok.mp hgo
    obtain ⟨_, s3, hstack, hgo⟩ := Proc.bind_eq_ok.mp hgo
    cases hgo
    rw [helf] at hsegs
    obtain ⟨h1, hloaded, -, harea, hfull⟩ := loadSegments_ok _ 0 _ _ _ s2 h hw (fun ph hph n hn => .inl ⟨ph, hph, hn, rfl⟩) hsegs
    have hempty : ∀ n, False ∨ SegPages file.segments n ↔ SegPages file.segments n := fun n => or_iff_right id
    obtain ⟨h2, hnew⟩ := setupStack_ok (h1.congr hempty) (fun n hn => .inr ⟨hn, rfl⟩) hstack
    refine ⟨helf, h2, hloaded, (h1.congr hempty).within, fun ph hph n hlo hhi hn => hnew n hlo hhi (harea ph hph n hn).2, ?_⟩
    have hsame : (fun n => False ∨ SegPages file.segments n) = SegPages file.segments := funext fun n => propext (hempty n)
    have hnil : Full pgsize (fun _ => False) nothing := fun a ha => ha.elim
    change Full pgsize (fun n => False ∨ SegPages file.segments n) (segsImage file.bytes file.segments nothing) ↔ _ at hfull
    rw [hsame] at hfull
    exact hfull.trans (and_iff_right hnil)

/-- **What `load_icode` leaves behind if it returns.** -/
theorem loadIcode_ok (hboot : ∀ i < 2, (boot i).v = false) (hready : s.Ready)
    (hw : ∀ ph ∈ file.segments, ph.Filled ∨ ¬ ph.Wraps) (hrun : loadIcode boot file argc kargv s = .ok () s') :
    ∃ m s1, s' = switchTo m argc (argsTop argc kargv) (elfHdr file.bytes).eEntry s1 ∧
      ProgLoaded (LoadPerms file) s.vm.mem.data (fun p => p ∉ s.vm.mem.free) m (LoadPages file) (loadImage file argc kargv) s1.vm ∧
      SegsLoaded file.segments ∧ (∀ ph ∈ file.segments, ∀ n, ph.AreaPages n → ¬ StackPages n) ∧
      argc ≤ execMaxArgNum ∧ ArgsFit argc kargv ∧
      (Full pgsize (LoadPages file) (loadImage file argc kargv) ↔
        (∀ ph ∈ file.segments, ph.Filled) ∧ StackFilled argc kargv) := by
  rw [loadIcode] at hrun
  obtain ⟨_, s1, hcheck, hgo⟩ := Proc.bind_eq_ok.mp hrun
  obtain ⟨hargc, rfl⟩ := Proc.check_eq_ok.mp hcheck
  obtain ⟨m, s2, hnew, hgo⟩ := Proc.bind_eq_ok.mp hgo
  obtain ⟨v, hnew', rfl⟩ := inVm_ok hnew
  have hinto : loadInto file argc kargv m { s1 with vm := v } = .ok () s' := by
    cases hi : loadInto file argc kargv m { s1 with vm := v } with
    | ok u t =>
      rw [Proc.onErr_ok hi] at hgo
      exact hgo
    | err e t =>
      rw [Proc.onErr, hi] at hgo
      dsimp only at hgo
      split at hgo <;> cases hgo
    | panic p =>
      rw [Proc.onErr_panic hi] at hgo
      cases hgo
  rw [loadInto_eq] at hinto
  obtain ⟨elf, s3, hprog, hargs⟩ := Proc.bind_eq_ok.mp hinto
  have hstart : ProgLoaded (LoadPerms file) s1.vm.mem.data (fun p => p ∉ s1.vm.mem.free) m (fun _ => False) nothing v :=
    mmNew_loaded hboot hready hnew'
  obtain ⟨rfl, h1, hsegs, hwithin, harea, hfull⟩ := loadProgram_ok hstart hw hprog
  have hpages : ∀ n, ustackTop - ustackSize ≤ n * pgsize → n * pgsize < ustackTop → (LoadPages file n ↔ StackPages n) := by
    refine fun n hlo hhi => or_iff_right ?_
    rintro ⟨ph, hph, hn⟩
    exact harea ph hph n hlo hhi ((hsegs.loads ph hph).pages_area hn)
  have hstack : ∀ ph ∈ file.segments, ∀ n, ph.AreaPages n → ¬ StackPages n := by
    intro ph hph n hn hst
    refine harea ph hph n (le_trans ?_ hst.1) hst.2 hn
    decide
  have hapart : ∀ n, StackPages n → ¬ SegPages file.segments n := by
    rintro n hst ⟨ph, hph, hn⟩
    exact hstack ph hph n ((hsegs.loads ph hph).pages_area hn) hst
  rcases pushArgs_cases hargc ⟨h1, rfl⟩ hpages with ⟨hfit, s4, hrun', h2⟩ | ⟨-, q, hrun'⟩
  · rw [hrun'] at hargs
    cases hargs
    refine ⟨m, s4, rfl, h2.toProgLoaded, hsegs, hstack, hargc, hfit, ?_⟩
    -- the stack is filled apart from the segments
    have hor : Full pgsize (LoadPages file) (loadImage file argc kargv) ↔ _ := full_or (fun a ha => by rw [loadImage_out hargc hfit ha]) hapart
    rw [hor, hfull]
    exact and_congr_right fun _ => stackImage_full hfit fun y hy => hwithin.unknown (hapart _ hy)
  · rw [hrun'] at hargs
    cases hargs

/-! ## A kernel and its programs -/

def noBoot : Nat → Pte := fun _ => .zero

/-- Sixteen free pages that hold `b` everywhere -/
def freeKernel (b : UInt8) : Exec where
  vm :=
    { mem :=
        { ref := fun _ => 0, table := fun _ _ => .zero, data := fun p _ => if p < 16 then b else 0, free := Finset.range 16
          freed := [], pick := some, ticks := 0, nulls := 0 }
      mm := fun _ => .empty, live := ∅, kpick := some, kticks := 0 }
  mm := none
  pgdir := 0
  tf := { gpr := fun _ => 0, status := 0, epc := 0, tval := 0, cause := 0 }

/-- Arguments of the given lengths -/
def argsOf (len : Nat → Nat) : Nat → Bytes := fun i j => if j < len i then 0x61 else 0

/-- A program with one segment, at `va`; the file bytes begin with those of the header. -/
def segFile (va filesz memsz : Nat) : ElfFile where
  bytes := putLe (putLe (putLe (putLe (putLe (putLe (putLe (putLe (fun _ => 0) 0 elfMagic 4) 32 64 8) 56 1 2) 64 elfPtLoad 4) 68 4 4)
    80 va 8) 96 filesz 8) 104 memsz 8
  size := 120
  got offset len := min len (120 - offset)
  err _ _ := 0
  size_lt := by decide
  got_le _ _ := Nat.min_le_right _ _

end Ucore
