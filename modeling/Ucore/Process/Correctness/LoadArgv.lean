import Ucore.Process.Correctness.ExecFresh

/-!
# `Process.Correctness.LoadArgv` — what a new program finds of its arguments

Of the stack four pages are mapped when the arguments are pushed. If the strings and the pointers to them fit into these pages,
the program finds at `a1` the pointers, and at each pointer its string. If not, `get_pte` finds no page for the lowest of them, and
this is not checked.
-/

namespace Ucore

open PageMem Known

variable {boot : Nat → Pte} {file : ElfFile} {argc m : Nat} {kargv : Nat → Bytes} {s s' t : Exec}

/-! ## Reading an address space -/

/-- The process reads the word `v` at `a`. -/
def Exec.ReadsWord (t : Exec) (a v : Nat) : Prop := ∃ b : Bytes, (∀ i < 8, t.user (a + i) = some (b i)) ∧ getLe b 0 8 = v

/-- The process reads the string `str` at `a`, up to its end. -/
def Exec.ReadsStr (t : Exec) (a : Nat) (str : Bytes) : Prop :=
  ∃ len, (∀ j < len, str j ≠ 0) ∧ str len = 0 ∧ ∀ j ≤ len, t.user (a + j) = some (str j)

/-- The new program finds its arguments, and from `s` on only the pages of its stack have been written to. -/
structure ArgsRight (argc : Nat) (kargv : Nat → Bytes) (s t : Exec) : Prop where
  count : t.tf.gpr 10 = argc
  argv : t.tf.gpr 11 = t.tf.gpr 2
  aligned : t.tf.gpr 2 % 16 = 0
  args : ∀ i < argc, ∃ ptr, t.ReadsWord (t.tf.gpr 11 + 8 * i) ptr ∧ t.tf.gpr 11 + 8 * (argc + 1) ≤ ptr ∧ t.ReadsStr ptr (kargv i)
  null : t.ReadsWord (t.tf.gpr 11 + 8 * argc) 0
  inStack : ∀ p, ∀ i < pgsize, t.vm.mem.data p i ≠ s.vm.mem.data p i → ∃ n, StackPages n ∧ t.vm.mem.maps t.pgdir n = some p

/-- What `copy_kargv` lets through: a string ends within its buffer. -/
def Accepted (argc : Nat) (kargv : Nat → Bytes) : Prop := ∀ i < argc, ∃ j ≤ execMaxArgLen, kargv i j = 0

/-! ## The strings and the words of the stack -/

theorem argLen_zero {i : Nat} (h : ∃ j ≤ execMaxArgLen, kargv i j = 0) :
    kargv i (argLen kargv i) = 0 ∧ ∀ j < argLen kargv i, kargv i j ≠ 0 := by
  obtain ⟨j, hj, hzero⟩ := h
  obtain ⟨-, hbefore, hend⟩ := strnlen_spec (kargv i) (execMaxArgLen + 1) 0
  have hlt : argLen kargv i < execMaxArgLen + 1 := strnlen_lt_iff.mpr ⟨j, Nat.lt_succ_of_le hj, hzero⟩
  exact ⟨hend (by rw [Nat.zero_add]; exact hlt), fun i => hbefore i (Nat.zero_le i)⟩

theorem argBytes_mono (kargv : Nat → Bytes) (n : Nat) : ∀ i j, j ≤ n → argBytes kargv j i ≤ argBytes kargv n i := by
  induction n with
  | zero =>
    intro i j hj
    rw [Nat.le_zero.mp hj]
  | succ n ih =>
    intro i j hj
    cases j with
    | zero => exact Nat.zero_le _
    | succ j =>
      rw [argBytes_succ, argBytes_succ]
      exact Nat.add_le_add_left (ih (i + 1) j (Nat.le_of_succ_le_succ hj)) _

theorem argPtrs_getD (kargv : Nat → Bytes) (n : Nat) : ∀ i a j, j < n → (argPtrs kargv n i a).getD j 0 = a - argBytes kargv (j + 1) i := by
  induction n with
  | zero => exact fun i a j hj => absurd hj (Nat.not_lt_zero j)
  | succ n ih =>
    intro i a j hj
    rw [argPtrs, argBytes_succ]
    cases j with
    | zero => rfl
    | succ j =>
      rw [List.getD_cons_succ, ih (i + 1) _ j (Nat.lt_of_succ_lt_succ hj)]
      omega

/-- **A string on the stack.** The later ones are below it. -/
theorem pushedArgs_str (kargv : Nat → Bytes) (n : Nat) : ∀ i a (k : Known) j c, j < n → argBytes kargv n i ≤ a → c ≤ argLen kargv (i + j) →
    pushedArgs kargv n i a k (a - argBytes kargv (j + 1) i + c) = some (kargv (i + j) c) := by
  induction n with
  | zero => exact fun i a k j c hj => absurd hj (Nat.not_lt_zero j)
  | succ n ih =>
    intro i a k j c hj hle hc
    rw [argBytes_succ] at hle
    rw [pushedArgs, argBytes_succ]
    cases j with
    | zero =>
      have hzero : argBytes kargv 0 (i + 1) = 0 := rfl
      have hc' : c ≤ argLen kargv i := hc
      rw [hzero, Nat.add_zero, pushedArgs_out _ _ _ _ (by omega), put_in (by omega), Nat.add_sub_cancel_left]
      rfl
    | succ j =>
      have hnext : i + (j + 1) = i + 1 + j := by omega
      have hpos : a - (argLen kargv i + 1 + argBytes kargv (j + 1) (i + 1)) =
          a - (argLen kargv i + 1) - argBytes kargv (j + 1) (i + 1) := by omega
      rw [hnext] at hc ⊢
      rw [hpos]
      exact ih (i + 1) (a - (argLen kargv i + 1)) _ j c (Nat.lt_of_succ_lt_succ hj) (by omega) hc

/-- **A word on the stack**; behind the pointers there is a zero. -/
theorem pushedWords_word (argv : List Nat) : ∀ la (k : Known) j c, j ≤ argv.length → c < 8 →
    pushedWords argv la k (la + 8 * j + c) = some (putLe (fun _ => 0) 0 (argv.getD j 0) 8 c) := by
  induction argv with
  | nil =>
    intro la k j c hj hc
    obtain rfl : j = 0 := Nat.le_zero.mp hj
    rw [pushedWords, putWord, put_in (by omega), Nat.mul_zero, Nat.add_zero, Nat.add_sub_cancel_left]
    rfl
  | cons v argv ih =>
    intro la k j c hj hc
    rw [pushedWords]
    cases j with
    | zero =>
      rw [pushedWords_out _ _ _ (by omega), putWord, put_in (by omega), Nat.mul_zero, Nat.add_zero, Nat.add_sub_cancel_left]
      rfl
    | succ j =>
      have hpos : la + 8 * (j + 1) + c = la + 8 + 8 * j + c := by omega
      rw [hpos, List.getD_cons_succ]
      exact ih (la + 8) _ j c (Nat.le_of_succ_le_succ hj) hc

/-- A word that is pushed is read. -/
theorem readsWord_of_stack {a v : Nat} (hv : v < 2 ^ 64) (h : ∀ i < 8, t.user (a + i) = some (putLe (fun _ => 0) 0 v 8 i)) :
    t.ReadsWord a v := by
  refine ⟨putLe (fun _ => 0) 0 v 8, h, ?_⟩
  rw [getLe_putLe]
  exact Nat.mod_eq_of_lt hv

/-! ## `load_icode` -/

/-- `load_icode` up to the arguments: the program and the stack are in their places. -/
def loadSpace (boot : Nat → Pte) (file : ElfFile) : ExecM Nat := do
  let m ← inVm (mmNew boot)
  let _ ← loadProgram file m
  pure m

/-- What has been written so far is taken as it is. -/
theorem ProgLoaded.restart {Q : Nat → Perm → Prop} {x : Nat → Bytes} {L N : Nat → Prop} {k : Known} {v : Vm}
    (h : ProgLoaded Q x L m N k v) : ProgLoaded Q v.mem.data L m N nothing v :=
  ⟨h.inv, h.user, h.perms, h.mapped, h.inj, fun _ _ => rfl, fun _ _ _ _ _ _ => rfl, fun _ ha => absurd rfl ha⟩

/-- **The arguments of the new program.** -/
theorem argsRight_of_filling {Q : Nat → Perm → Prop} {L N : Nat → Prop} {mm : Nat → Mm} {entry : Nat}
    (hargc : argc ≤ execMaxArgNum) (hacc : Accepted argc kargv) (hfit : ArgsFit argc kargv)
    (h : Filling Q s.vm.mem.data L m N (stackImage argc kargv nothing) mm s') :
    ArgsRight argc kargv s (switchTo m argc (argsTop argc kargv) entry s') := by
  obtain ⟨hal, hend, -, hbytes⟩ := argsTop_bounds hargc kargv
  have hlow : 0x7fffc000 ≤ argsTop argc kargv := hfit
  have htop : ustackTop = 0x80000000 := rfl
  have hlen := argPtrs_length kargv argc 0 ustackTop
  have hread : ∀ {a b}, stackImage argc kargv nothing a = some b →
      (switchTo m argc (argsTop argc kargv) entry s').user a = some b := fun hk => h.toProgLoaded.user_known rfl hk
  -- what is read at the place of a word
  have hword : ∀ j ≤ argc, (argPtrs kargv argc 0 ustackTop).getD j 0 < 2 ^ 64 →
      (switchTo m argc (argsTop argc kargv) entry s').ReadsWord (argsTop argc kargv + 8 * j)
        ((argPtrs kargv argc 0 ustackTop).getD j 0) := by
    intro j hj hsmall
    refine readsWord_of_stack hsmall fun c hc => hread ?_
    exact pushedWords_word _ _ _ j c (by omega) hc
  refine ⟨rfl, rfl, hal, fun i hi => ⟨ustackTop - argBytes kargv (i + 1) 0, ?_, ?_, ?_⟩, ?_, ?_⟩
  · have hptr := argPtrs_getD kargv argc 0 ustackTop i hi
    rw [← hptr]
    exact hword i hi.le (by omega)
  · have := argBytes_mono kargv argc 0 (i + 1) hi
    show argsTop argc kargv + 8 * (argc + 1) ≤ _
    omega
  · -- the string lies above the words
    obtain ⟨hzero, hbefore⟩ := argLen_zero (hacc i hi)
    refine ⟨argLen kargv i, hbefore, hzero, fun j hj => hread ?_⟩
    have := argBytes_mono kargv argc 0 (i + 1) hi
    have hstr := pushedArgs_str kargv argc 0 ustackTop nothing i j hi hbytes (by rw [Nat.zero_add]; exact hj)
    rw [Nat.zero_add] at hstr
    rw [stackImage, pushedWords_out]
    · exact hstr
    · rw [hlen]
      refine .inr (le_trans hend ?_)
      omega
  · have hnone : (argPtrs kargv argc 0 ustackTop).getD argc 0 = 0 := by
      rw [List.getD_eq_getElem?_getD, List.getElem?_eq_none hlen.le]
      rfl
    have := hword argc (Nat.le_refl argc) (by rw [hnone]; decide)
    rw [hnone] at this
    exact this
  · -- a byte that changes is at a place where something has been pushed
    intro p i hi hne
    by_cases hmap : ∃ n < userPages, s'.vm.mem.maps (s'.vm.mm m).pgdir n = some p
    · obtain ⟨n, hn, hmap⟩ := hmap
      refine ⟨n, ?_, hmap⟩
      by_contra hno
      refine hne ((h.bytes n p i hn hi hmap).trans ?_)
      rw [← page_of_addr n hi, stackPages_iff] at hno
      rw [stackImage_out hend (by rw [← argsTop]; omega)]
      rfl
    · exact absurd (congrFun (h.other p fun n hn hm => hmap ⟨n, hn, hm⟩) i) hne

/-- With the program and the stack in their places, what is left is to push the arguments. -/
theorem loadIcode_of_loadSpace (kargv : Nat → Bytes) (hargc : argc ≤ execMaxArgNum) (hrun : loadSpace boot file s = .ok m s') :
    ∃ elf, loadIcode boot file argc kargv s = Proc.onErr (pushArgs argc kargv m elf) (badMm m) s' := by
  rw [loadSpace] at hrun
  obtain ⟨m', s1, hnew, hgo⟩ := Proc.bind_eq_ok.mp hrun
  obtain ⟨elf, s2, hprog, hgo⟩ := Proc.bind_eq_ok.mp hgo
  cases hgo
  have hinto : loadInto file argc kargv m s1 = pushArgs argc kargv m elf s' := by
    rw [loadInto_eq]
    exact Proc.bind_ok hprog
  refine ⟨elf, ?_⟩
  have hcheck : (Proc.check .argNum (argc ≤ execMaxArgNum) : ExecM Unit) s = .ok () s := Proc.check_eq_ok.mpr ⟨hargc, rfl⟩
  rw [loadIcode, Proc.bind_ok hcheck, Proc.bind_ok hnew, Proc.onErr, Proc.onErr, hinto]

theorem loadSpace_ok (hboot : ∀ i < 2, (boot i).v = false) (hready : s.Ready)
    (hw : ∀ ph ∈ file.segments, ph.Filled ∨ ¬ ph.Wraps) (hrun : loadSpace boot file s = .ok m s') :
    ProgLoaded (LoadPerms file) s'.vm.mem.data (fun p => p ∉ s.vm.mem.free) m (LoadPages file) nothing s'.vm ∧
      ∀ n, ustackTop - ustackSize ≤ n * pgsize → n * pgsize < ustackTop → (LoadPages file n ↔ StackPages n) := by
  rw [loadSpace] at hrun
  obtain ⟨m', s1, hnew, hgo⟩ := Proc.bind_eq_ok.mp hrun
  obtain ⟨elf, s2, hprog, hgo⟩ := Proc.bind_eq_ok.mp hgo
  cases hgo
  obtain ⟨v, hnew', rfl⟩ := inVm_ok hnew
  obtain ⟨-, h, hsegs, -, harea, -⟩ := loadProgram_ok (mmNew_loaded hboot hready hnew') hw hprog
  refine ⟨h.restart, fun n hlo hhi => or_iff_right ?_⟩
  rintro ⟨ph, hph, hn⟩
  exact harea ph hph n hlo hhi ((hsegs.loads ph hph).pages_area hn)

end Ucore
