import Ucore.Process.Correctness.LoadRun

/-!
# `Process.Correctness.LoadArgs` — pushing the arguments

The arguments go to the top of the stack, of which four pages are mapped, and `*get_pte(…)` is not checked. If the arguments and
their pointers fit into these pages (`ArgsFit`), all of them are written; if not, the machine stops at a page that is not there.
-/

namespace Ucore

open PageMem Known

variable {Q : Nat → Perm → Prop} {x : Nat → Bytes} {L N : Nat → Prop} {m n p la start stop base cur argc : Nat} {k : Known}
  {mm : Nat → Mm} {s s' : Exec} {file : ElfFile} {kargv : Nat → Bytes}

/-- The page is there, or the pointer that is not checked is null. -/
theorem pageAt_cases (h : Filling Q x L m N k mm s) (hla : la < userTop) :
    (N (la / pgsize) ∧ ∃ p, s.vm.mem.maps (mm m).pgdir (la / pgsize) = some p ∧ pageAt (mm m).pgdir la s = .ok p s) ∨
      (¬ N (la / pgsize) ∧ ∃ q, pageAt (mm m).pgdir la s = .panic q) := by
  obtain ⟨ptep, hget, hfound⟩ := getPte_leaf s.vm.mem (mm m).pgdir hla
  have hmapped := h.mapped (la / pgsize) (page_lt hla)
  rw [h.areas] at hmapped
  have hin : inVm (inMem (getPte (mm m).pgdir la false)) s = .ok ptep s := by
    rw [inVm, inMem, Proc.zoom_ok hget]
    rfl
  rw [pageAt, Proc.bind_ok hin]
  cases ptep with
  | none =>
    change s.vm.mem.maps (mm m).pgdir (la / pgsize) = none at hfound
    rw [hfound] at hmapped
    exact .inr ⟨fun hN => hmapped.mpr hN rfl, .nullPte, rfl⟩
  | some e =>
    change s.vm.mem.table e.1 e.2 = _ at hfound
    show (_ ∧ ∃ p, _ ∧ (if (s.vm.mem.table e.1 e.2).v = true then pure (s.vm.mem.table e.1 e.2).ppn else Proc.stop .badPte : ExecM Nat) s =
      _) ∨ (_ ∧ ∃ q, (if (s.vm.mem.table e.1 e.2).v = true then pure (s.vm.mem.table e.1 e.2).ppn else Proc.stop .badPte : ExecM Nat) s =
      _)
    rw [hfound]
    by_cases hv : (s.vm.mem.leaf (mm m).pgdir (la / pgsize)).v = true
    · have hp : s.vm.mem.maps (mm m).pgdir (la / pgsize) = some (s.vm.mem.leaf (mm m).pgdir (la / pgsize)).ppn :=
        maps_eq_some.mpr ⟨hv, rfl⟩
      rw [if_pos hv]
      exact .inl ⟨hmapped.mp (by rw [hp]; exact Option.some_ne_none _), _, hp, rfl⟩
    · rw [PageMem.maps, if_neg hv] at hmapped
      rw [if_neg hv]
      exact .inr ⟨fun hN => hmapped.mpr hN rfl, .badPte, rfl⟩

/-! ## Strings -/

/-- **A string**, page by page. -/
theorem pushChunks_cases (str : Bytes) (hbase : base ≤ cur) (htop : stop ≤ userTop) : ∀ fuel, 0 < fuel →
    (cur < stop → (stop - 1) / pgsize - cur / pgsize + 2 ≤ fuel) → ∀ k (s : Exec), Filling Q x L m N k mm s →
    ((∀ y, cur ≤ y → y < stop → N (y / pgsize)) ∧ ∃ s', pushChunks (mm m).pgdir str base stop fuel cur s = .ok () s' ∧
        Filling Q x L m N (k.put cur stop fun y => str (y - base)) mm s') ∨
      ((∃ y, cur ≤ y ∧ y < stop ∧ ¬ N (y / pgsize)) ∧ ∃ q, pushChunks (mm m).pgdir str base stop fuel cur s = .panic q) := by
  have hpg : pgsize = 4096 := rfl
  intro fuel
  induction fuel generalizing cur with
  | zero => exact fun hf => absurd hf (Nat.lt_irrefl 0)
  | succ fuel ih =>
    intro _ hfuel k s h
    rw [pushChunks]
    by_cases hlt : cur < stop
    · rw [if_pos hlt]
      rcases pageAt_cases h (show cur < userTop by omega) with ⟨hN, p, hp, hat⟩ | ⟨hno, q, hat⟩
      · rw [Proc.bind_ok hat]
        generalize hchunk : min (pgsize - cur % pgsize) (stop - cur) = chunk
        rw [hpg] at hchunk
        have hfit : cur % pgsize + chunk ≤ pgsize := by
          rw [hpg]
          omega
        have h1 := h.write (page_lt (by omega)) hp str (cur - base) hfit rfl
        have hpos : cur / pgsize * pgsize + cur % pgsize = cur := by
          rw [hpg]
          omega
        have hblock : ∀ y, cur ≤ y → y < cur + chunk → str (cur - base + (y - cur)) = str (y - base) := by
          intro y hlo _
          congr 1
          omega
        rw [hpos, put_congr hblock] at h1
        have hsame : ∀ y, cur ≤ y → y < cur + chunk → y / pgsize = cur / pgsize := by
          intro y hlo hhi
          rw [hpg]
          omega
        have hmore : cur + chunk < stop → (stop - 1) / pgsize - (cur + chunk) / pgsize + 2 ≤ fuel := by
          intro hnext
          have := hfuel hlt
          rw [hpg] at this ⊢
          omega
        have hpos' : 0 < fuel := by
          have := hfuel hlt
          omega
        rcases ih (by omega) hpos' hmore _ _ h1 with ⟨hall, s', hrun, h2⟩ | ⟨⟨y, hlo, hhi, hno⟩, q, hrun⟩
        · rw [put_append (by omega) (by omega)] at h2
          refine .inl ⟨fun y hlo hhi => ?_, s', hrun, h2⟩
          by_cases hy : y < cur + chunk
          · rw [hsame y hlo hy]
            exact hN
          · exact hall y (by omega) hhi
        · exact .inr ⟨⟨y, by omega, hhi, hno⟩, q, hrun⟩
      · exact .inr ⟨⟨cur, Nat.le_refl cur, hlt, hno⟩, q, by rw [Proc.bind_panic hat]⟩
    · rw [if_neg hlt, put_nil (by omega)]
      exact .inl ⟨fun y hlo hhi => by omega, s, rfl, h⟩

theorem pageFuel_enough (start stop : Nat) (hlt : start < stop) : (stop - 1) / pgsize - start / pgsize + 2 ≤ pageFuel start stop := by
  show (stop - 1) / 4096 - start / 4096 + 2 ≤ (stop - start) / 4096 + 3
  omega

theorem pushStrings_succ {d c i a : Nat} (hle : argLen kargv i + 1 ≤ a) : pushStrings d kargv (c + 1) i a = (do
    pushChunks d (kargv i) (a - (argLen kargv i + 1)) a (pageFuel (a - (argLen kargv i + 1)) a) (a - (argLen kargv i + 1))
    let (top, argv) ← pushStrings d kargv c (i + 1) (a - (argLen kargv i + 1))
    pure (top, (a - (argLen kargv i + 1)) :: argv)) := by
  have hend : a - (argLen kargv i + 1) + argLen kargv i + 1 = a := by omega
  rw [pushStrings]
  change (pushChunks d (kargv i) (a - (argLen kargv i + 1)) (a - (argLen kargv i + 1) + argLen kargv i + 1)
    (pageFuel (a - (argLen kargv i + 1)) (a - (argLen kargv i + 1) + argLen kargv i + 1)) (a - (argLen kargv i + 1)) >>= _) = _
  rw [hend]
  rfl

/-- **Push strings.** -/
theorem pushStrings_cases : ∀ c i a k (s : Exec), argBytes kargv c i ≤ a → a ≤ userTop → Filling Q x L m N k mm s →
    ((∀ y, a - argBytes kargv c i ≤ y → y < a → N (y / pgsize)) ∧ ∃ s', pushStrings (mm m).pgdir kargv c i a s =
        .ok (a - argBytes kargv c i, argPtrs kargv c i a) s' ∧ Filling Q x L m N (pushedArgs kargv c i a k) mm s') ∨
      ((∃ y, a - argBytes kargv c i ≤ y ∧ y < a ∧ ¬ N (y / pgsize)) ∧ ∃ q, pushStrings (mm m).pgdir kargv c i a s = .panic q) := by
  intro c
  induction c with
  | zero =>
    intro i a k s _ _ h
    have hzero : argBytes kargv 0 i = 0 := rfl
    rw [hzero]
    exact .inl ⟨fun y hlo hhi => by omega, s, rfl, h⟩
  | succ c ih =>
    intro i a k s hle htop h
    rw [argBytes_succ] at hle ⊢
    have hchunks := pushChunks_cases (kargv i) (Nat.le_refl (a - (argLen kargv i + 1))) htop
      (pageFuel (a - (argLen kargv i + 1)) a) (Nat.succ_pos _) (pageFuel_enough _ _) k s h
    rw [pushStrings_succ (by omega)]
    rcases hchunks with ⟨hall, s1, hrun, h1⟩ | ⟨⟨y, hlo, hhi, hno⟩, q, hrun⟩
    · rw [Proc.bind_ok hrun]
      rcases ih (i + 1) (a - (argLen kargv i + 1)) _ s1 (by omega) (by omega) h1 with
        ⟨hall', s', hrun', h2⟩ | ⟨⟨y, hlo, hhi, hno⟩, q, hrun'⟩
      · refine .inl ⟨fun y hlo hhi => ?_, s', ?_, h2⟩
        · by_cases hy : a - (argLen kargv i + 1) ≤ y
          · exact hall y hy hhi
          · exact hall' y (by omega) (by omega)
        · have hbot : a - (argLen kargv i + 1) - argBytes kargv c (i + 1) = a - (argLen kargv i + 1 + argBytes kargv c (i + 1)) := by
            omega
          rw [Proc.bind_ok hrun', hbot]
          rfl
      · refine .inr ⟨⟨y, by omega, by omega, hno⟩, q, ?_⟩
        rw [Proc.bind_panic hrun']
    · exact .inr ⟨⟨y, by omega, hhi, hno⟩, q, by rw [Proc.bind_panic hrun]⟩

/-! ## Pointers -/

/-- A word lies in one page. -/
theorem pushWord_cases (h : Filling Q x L m N k mm s) (hal : la % 8 = 0) (htop : la + 8 ≤ userTop) (v : Nat) :
    ((∀ y, la ≤ y → y < la + 8 → N (y / pgsize)) ∧ ∃ s', pushWord (mm m).pgdir la v s = .ok () s' ∧
        Filling Q x L m N (putWord k la v) mm s') ∨
      (¬ N (la / pgsize) ∧ ∃ q, pushWord (mm m).pgdir la v s = .panic q) := by
  have hpg : pgsize = 4096 := rfl
  rw [pushWord]
  rcases pageAt_cases h (show la < userTop by omega) with ⟨hN, p, hp, hat⟩ | ⟨hno, q, hat⟩
  · rw [Proc.bind_ok hat]
    have hfit : la % pgsize + 8 ≤ pgsize := by
      rw [hpg]
      omega
    have h1 := h.write (page_lt (by omega)) hp (putLe (fun _ => 0) 0 v 8) 0 hfit rfl
    have hpos : la / pgsize * pgsize + la % pgsize = la := by
      rw [hpg]
      omega
    rw [hpos] at h1
    have hword : k.put la (la + 8) (fun y => putLe (fun _ => 0) 0 v 8 (0 + (y - la))) = putWord k la v :=
      put_congr fun y _ _ => by rw [Nat.zero_add]
    rw [hword] at h1
    refine .inl ⟨fun y hlo hhi => ?_, _, rfl, h1⟩
    have hsame : y / pgsize = la / pgsize := by
      rw [hpg]
      omega
    rw [hsame]
    exact hN
  · exact .inr ⟨hno, q, by rw [Proc.bind_panic hat]⟩

/-- **Write argv array**, with its end. -/
theorem pushArgv_cases (argv : List Nat) : ∀ la k (s : Exec), la % 8 = 0 → la + 8 * (argv.length + 1) ≤ userTop →
    Filling Q x L m N k mm s →
    ((∀ y, la ≤ y → y < la + 8 * (argv.length + 1) → N (y / pgsize)) ∧ ∃ s', pushArgv (mm m).pgdir argv la s = .ok () s' ∧
        Filling Q x L m N (pushedWords argv la k) mm s') ∨
      ((∃ y, la ≤ y ∧ y < la + 8 * (argv.length + 1) ∧ ¬ N (y / pgsize)) ∧ ∃ q, pushArgv (mm m).pgdir argv la s = .panic q) := by
  induction argv with
  | nil =>
    intro la k s hal htop h
    rcases pushWord_cases h hal htop 0 with hok | ⟨hno, q, hrun⟩
    · exact .inl hok
    · exact .inr ⟨⟨la, Nat.le_refl la, Nat.lt_add_of_pos_right (by decide), hno⟩, q, hrun⟩
  | cons v argv ih =>
    intro la k s hal htop h
    rw [List.length_cons] at htop ⊢
    rw [pushArgv]
    rcases pushWord_cases h hal (by omega) v with ⟨hall, s1, hrun, h1⟩ | ⟨hno, q, hrun⟩
    · rw [Proc.bind_ok hrun]
      rcases ih (la + 8) _ s1 (by omega) (by omega) h1 with ⟨hall', s', hrun', h2⟩ | ⟨⟨y, hlo, hhi, hno⟩, q, hrun'⟩
      · refine .inl ⟨fun y hlo hhi => ?_, s', hrun', h2⟩
        by_cases hy : y < la + 8
        · exact hall y hlo hy
        · exact hall' y (by omega) (by omega)
      · exact .inr ⟨⟨y, by omega, by omega, hno⟩, q, hrun'⟩
    · exact .inr ⟨⟨la, Nat.le_refl la, by omega, hno⟩, q, by rw [Proc.bind_panic hrun]⟩

/-! ## All of it -/

/-- `load_icode` up to the arguments -/
def loadProgram (file : ElfFile) (m : Nat) : ExecM ElfHdr := do
  let elf ← readHdr file elfHdr elfHdrSize 0
  if elf.eMagic ≠ elfMagic then Proc.fail (-eInvalElf)
  else do
    loadSegments file m elf.ePhoff elf.ePhnum 0
    setupStack m
    pure elf

/-- The arguments, and what comes behind them -/
def pushArgs (argc : Nat) (kargv : Nat → Bytes) (m : Nat) (elf : ElfHdr) : ExecM Unit := do
  let s ← Proc.get
  let pgdir := (s.vm.mm m).pgdir
  let (top, argv) ← pushStrings pgdir kargv argc 0 ustackTop
  let stacktop := argvTop argc top
  pushArgv pgdir argv stacktop
  Proc.modify (switchTo m argc stacktop elf.eEntry)

theorem loadInto_eq (file : ElfFile) (argc : Nat) (kargv : Nat → Bytes) (m : Nat) :
    loadInto file argc kargv m = loadProgram file m >>= pushArgs argc kargv m := by
  funext s
  rw [loadInto, loadProgram, Proc.bind_run, Proc.bind_run, Proc.bind_run]
  cases readHdr file elfHdr elfHdrSize 0 s with
  | err e s' => rfl
  | panic q => rfl
  | ok elf s' =>
    dsimp only
    split
    · rfl
    · rw [Proc.bind_run, Proc.bind_run]
      cases loadSegments file m elf.ePhoff elf.ePhnum 0 s' with
      | err e s' => rfl
      | panic q => rfl
      | ok u s' =>
        dsimp only
        rw [Proc.bind_run, Proc.bind_run]
        cases setupStack m s' with
        | err e s' => rfl
        | panic q => rfl
        | ok u s' => rfl

/-- Where the arguments end: `stacktop` at last -/
def argsTop (argc : Nat) (kargv : Nat → Bytes) : Nat := argvTop argc (ustackTop - argBytes kargv argc 0)

/-- The arguments and their pointers fit into the pages that are mapped. -/
def ArgsFit (argc : Nat) (kargv : Nat → Bytes) : Prop := ustackTop - 4 * pgsize ≤ argsTop argc kargv

theorem argsTop_bounds (hargc : argc ≤ execMaxArgNum) (kargv : Nat → Bytes) : argsTop argc kargv % 16 = 0 ∧
    argsTop argc kargv + 8 * (argc + 1) ≤ ustackTop - argBytes kargv argc 0 ∧ ustackTop - ustackSize ≤ argsTop argc kargv ∧
    argBytes kargv argc 0 ≤ ustackTop := by
  have hbytes : argBytes kargv argc 0 ≤ 4097 * argc := argBytes_le kargv argc 0
  have hargc' : argc ≤ 32 := hargc
  have htop : argsTop argc kargv = (0x80000000 - argBytes kargv argc 0 - (argc + 1) * 8) / 16 * 16 := rfl
  have hstack : ustackTop - ustackSize = 0x7ff00000 := rfl
  have hus : ustackTop = 0x80000000 := rfl
  rw [htop, hstack, hus]
  refine ⟨by omega, by omega, by omega, by omega⟩

/-- **Push Arguments**: either they fit, and are written; or they do not, and an assertion fails or a null pointer is read. -/
theorem pushArgs_cases {elf : ElfHdr} (hargc : argc ≤ execMaxArgNum) (h : Filling Q x L m N k mm s)
    (hN : ∀ n, ustackTop - ustackSize ≤ n * pgsize → n * pgsize < ustackTop → (N n ↔ StackPages n)) :
    (ArgsFit argc kargv ∧ ∃ s', pushArgs argc kargv m elf s = .ok () (switchTo m argc (argsTop argc kargv) elf.eEntry s') ∧
        Filling Q x L m N (stackImage argc kargv k) mm s') ∨
      (¬ ArgsFit argc kargv ∧ ∃ q, pushArgs argc kargv m elf s = .panic q) := by
  have hpg : pgsize = 4096 := rfl
  have hstack : ustackTop - ustackSize = 0x7ff00000 := rfl
  have htop : ustackTop = 0x80000000 := rfl
  obtain ⟨hal, hend, hlow, hbytes⟩ := argsTop_bounds hargc kargv
  rw [hstack] at hN hlow
  -- of the stack area, the pages that are mapped are those of its last four
  have hpage : ∀ y, argsTop argc kargv ≤ y → y < ustackTop → (N (y / pgsize) ↔ 0x7fffc000 ≤ y) := by
    intro y hlo hhi
    rw [htop] at hhi hN
    rw [hN (y / pgsize) (by rw [hpg]; omega) (by rw [hpg]; omega), stackPages_iff]
    omega
  have hfit : ArgsFit argc kargv ↔ 0x7fffc000 ≤ argsTop argc kargv := Iff.rfl
  rw [pushArgs, Proc.get_bind, h.areas]
  rcases pushStrings_cases argc 0 ustackTop k s hbytes (Nat.le_refl _) h with ⟨-, s1, hrun, h1⟩ | ⟨⟨y, hlo, hhi, hno⟩, q, hrun⟩
  · rw [Proc.bind_ok hrun]
    have hlen := argPtrs_length kargv argc 0 ustackTop
    show (_ ∧ ∃ s', (pushArgv (mm m).pgdir (argPtrs kargv argc 0 ustackTop) (argsTop argc kargv) >>= _) s1 = _ ∧ _) ∨
      (_ ∧ ∃ q, (pushArgv (mm m).pgdir (argPtrs kargv argc 0 ustackTop) (argsTop argc kargv) >>= _) s1 = _)
    have hargv := pushArgv_cases (argPtrs kargv argc 0 ustackTop) (argsTop argc kargv) _ s1 (by omega)
      (by rw [hlen]; exact hend.trans (Nat.sub_le _ _)) h1
    rw [hlen] at hargv
    rcases hargv with ⟨hall, s2, hrun', h2⟩ | ⟨⟨y, hlo, hhi, hno⟩, q, hrun'⟩
    · refine .inl ⟨?_, s2, ?_, h2⟩
      · exact hfit.mpr ((hpage _ (Nat.le_refl _) (by omega)).mp (hall _ (Nat.le_refl _) (by omega)))
      · rw [Proc.bind_ok hrun']
        rfl
    · refine .inr ⟨fun hf => hno ((hpage y hlo (by omega)).mpr ?_), q, by rw [Proc.bind_panic hrun']⟩
      exact (hfit.mp hf).trans hlo
  · refine .inr ⟨fun hf => hno ((hpage y (by omega) hhi).mpr ?_), q, by rw [Proc.bind_panic hrun]⟩
    have := hfit.mp hf
    omega

end Ucore
