import Mathlib.Algebra.GroupWithZero.Nat
import Ucore.Lib.Known
import Ucore.Process.LoadIcode

/-!
# `Process.Correctness.LoadImage` — what `load_icode` writes, as a function of the file and the arguments

`ProgHdr.Pages` are the pages that a segment gets, and `ProgHdr.image` is what is written to them; `stackImage` is what is
written to the four pages of the stack. A segment fills its pages if and only if it is `Filled`: of the pages that file bytes go
to, the part before these bytes is not written, nor the part behind them unless there is BSS. The arguments fill the stack if
and only if they are exactly as long as it is.
-/

namespace Ucore

open Known

/-- The end of the page that the address before `a` is in. -/
def pageUp (a : Nat) : Nat := (a + (pgsize - 1)) / pgsize * pgsize

namespace ProgHdr

variable (ph : ProgHdr)

/-- The fields are numbers of 64 bits. -/
def Small : Prop := ph.pOffset < 2 ^ 64 ∧ ph.pVa < 2 ^ 64 ∧ ph.pMemsz < 2 ^ 64

/-- The segment does not end at a 64-bit address. -/
def Wraps : Prop := 2 ^ 64 ≤ ph.pVa + ph.pMemsz

/-- The user pages that are mapped for the segment. -/
def Pages (n : Nat) : Prop :=
  (if ph.pVa < ph.stop then ph.pVa / pgsize ≤ n else ph.pVa ≤ n * pgsize) ∧ n * pgsize < ph.stopMem

/-- The file byte that goes to the address `a` -/
def fileByte (b : Bytes) (a : Nat) : UInt8 := b (ph.pOffset + (a - ph.pVa))

def bssStart : Nat := if ph.pVa < ph.stop then ph.stop else pageUp ph.pVa

/-- The known bytes after the segment has been loaded. -/
def image (b : Bytes) (k : Known) : Known :=
  if ph.stop < ph.stopMem then (k.put ph.pVa ph.stop (ph.fileByte b)).put ph.bssStart (pageUp ph.stopMem) fun _ => 0
  else k.put ph.pVa ph.stop (ph.fileByte b)

/-- Every byte of the pages is written. -/
def Filled : Prop := ph.pVa < ph.stop → ph.pVa % pgsize = 0 ∧ (ph.stop < ph.stopMem ∨ ph.stop % pgsize = 0)

variable {ph : ProgHdr} {b : Bytes} {k : Known} {a : Nat}

theorem small_progHdr (b : Bytes) : (progHdr b).Small := ⟨getLe_lt b 8 8, getLe_lt b 16 8, getLe_lt b 40 8⟩

/-- The file bytes end no later than the segment. -/
theorem stop_le (hsz : ph.pFilesz ≤ ph.pMemsz) (hw : ¬ ph.Wraps) : ph.stop ≤ ph.stopMem := by
  have hlt : ph.pVa + ph.pMemsz < 2 ^ 64 := Nat.lt_of_not_le hw
  show (ph.pVa + ph.pFilesz) % 2 ^ 64 ≤ (ph.pVa + ph.pMemsz) % 2 ^ 64
  omega

section

variable (hord : ph.pVa < ph.stop → ph.stop ≤ ph.stopMem)

include hord

theorem image_ne_none : ph.image b k a ≠ none ↔ (ph.pVa ≤ a ∧ a < ph.stop) ∨
    (ph.stop < ph.stopMem ∧ ph.bssStart ≤ a ∧ a < pageUp ph.stopMem) ∨ k a ≠ none := by
  rw [image]
  split
  · next hbss =>
    rw [put_ne_none, put_ne_none]
    tauto
  · next hbss =>
    rw [put_ne_none]
    tauto

/-- Nothing is written outside of the pages. -/
theorem image_out (ha : ¬ ph.Pages (a / pgsize)) : ph.image b k a = k a := by
  have hfile : ¬ (ph.pVa ≤ a ∧ a < ph.stop) := by
    rintro ⟨hlo, hhi⟩
    have hlt : ph.pVa < ph.stop := by omega
    refine ha ⟨?_, ?_⟩
    · rw [if_pos hlt]
      exact Nat.div_le_div_right hlo
    · have := hord hlt
      have := Nat.div_mul_le_self a pgsize
      omega
  have hbss : ¬ (ph.bssStart ≤ a ∧ a < pageUp ph.stopMem) := by
    rintro ⟨hlo, hhi⟩
    have hend : a / 2 ^ 12 * 2 ^ 12 < ph.stopMem := by
      have : a < (ph.stopMem + (2 ^ 12 - 1)) / 2 ^ 12 * 2 ^ 12 := hhi
      omega
    refine ha ⟨?_, hend⟩
    rw [bssStart] at hlo
    split at hlo
    · next hlt =>
      rw [if_pos hlt]
      exact Nat.div_le_div_right (by omega)
    · next hlt =>
      rw [if_neg hlt]
      have hup : (ph.pVa + (2 ^ 12 - 1)) / 2 ^ 12 * 2 ^ 12 ≤ a := hlo
      show ph.pVa ≤ a / 2 ^ 12 * 2 ^ 12
      omega
  rw [image]
  split
  · rw [put_out hbss, put_out hfile]
  · rw [put_out hfile]

omit hord in
theorem image_file (hlo : ph.pVa ≤ a) (hhi : a < ph.stop) : ph.image b k a = some (ph.fileByte b a) := by
  have hbss : ¬ (ph.bssStart ≤ a ∧ a < pageUp ph.stopMem) := by
    rw [bssStart, if_pos (by omega)]
    omega
  rw [image]
  split
  · rw [put_out hbss, put_in ⟨hlo, hhi⟩]
  · rw [put_in ⟨hlo, hhi⟩]

omit hord in
theorem image_bss (hlo : ph.bssStart ≤ a) (hhi : a < ph.stopMem) (hbss : ph.stop < ph.stopMem) : ph.image b k a = some 0 := by
  have hup : a < pageUp ph.stopMem := by
    show a < (ph.stopMem + (2 ^ 12 - 1)) / 2 ^ 12 * 2 ^ 12
    omega
  rw [image, if_pos hbss, put_in ⟨hlo, hup⟩]

/-- **Which segments fill their pages.** -/
theorem image_full (hk : ∀ a, ph.Pages (a / pgsize) → k a = none) : Full pgsize ph.Pages (ph.image b k) ↔ ph.Filled := by
  constructor
  · intro h hlt
    have hle := hord hlt
    -- the byte at an address of the pages is one of the file or of the BSS
    have hbyte : ∀ a, ph.pVa / pgsize ≤ a / pgsize → a / pgsize * pgsize < ph.stopMem →
        (ph.pVa ≤ a ∧ a < ph.stop) ∨ (ph.stop < ph.stopMem ∧ ph.stop ≤ a) := by
      intro a hlo hhi
      have hpage : ph.Pages (a / pgsize) := by
        refine ⟨?_, hhi⟩
        rw [if_pos hlt]
        exact hlo
      rcases (image_ne_none hord).mp (h a hpage) with hfile | ⟨hbss, hin, -⟩ | hold
      · exact .inl hfile
      · rw [bssStart, if_pos hlt] at hin
        exact .inr ⟨hbss, hin⟩
      · exact absurd (hk a hpage) hold
    refine ⟨?_, ?_⟩
    · -- the first address of the first page
      have hfirst := hbyte (ph.pVa / pgsize * pgsize) (by rw [Nat.mul_div_cancel _ (by decide)])
        (by rw [Nat.mul_div_cancel _ (by decide)]; have := Nat.div_mul_le_self ph.pVa pgsize; omega)
      show ph.pVa % 2 ^ 12 = 0
      change (ph.pVa ≤ ph.pVa / 2 ^ 12 * 2 ^ 12 ∧ _) ∨ (_ ∧ _ ≤ ph.pVa / 2 ^ 12 * 2 ^ 12) at hfirst
      omega
    · -- the first address behind the bytes of the file
      by_contra hno
      rw [not_or] at hno
      obtain ⟨hbss, hal⟩ := hno
      have heq : ph.stop = ph.stopMem := by omega
      have hrest : ¬ ph.stop % 2 ^ 12 = 0 := hal
      have hlast := hbyte ph.stop (Nat.div_le_div_right hlt.le) (by
        show ph.stop / 2 ^ 12 * 2 ^ 12 < ph.stopMem
        omega)
      omega
  · intro hf a ⟨hlo, hhi⟩
    rw [image_ne_none hord]
    have hend : a < pageUp ph.stopMem := by
      have hhi' : a / 2 ^ 12 * 2 ^ 12 < ph.stopMem := hhi
      show a < (ph.stopMem + (2 ^ 12 - 1)) / 2 ^ 12 * 2 ^ 12
      omega
    have hin : a / 2 ^ 12 * 2 ^ 12 < ph.stopMem := hhi
    by_cases hlt : ph.pVa < ph.stop
    · rw [if_pos hlt] at hlo
      obtain ⟨hal, hbss⟩ := hf hlt
      have hal' : ph.pVa % 2 ^ 12 = 0 := hal
      have hlo' : ph.pVa / 2 ^ 12 ≤ a / 2 ^ 12 := hlo
      have hle := hord hlt
      rw [bssStart, if_pos hlt]
      by_cases hstop : a < ph.stop
      · exact .inl ⟨by omega, hstop⟩
      · refine .inr (.inl ⟨?_, by omega, hend⟩)
        rcases hbss with hbss | hbss
        · exact hbss
        · have hbss' : ph.stop % 2 ^ 12 = 0 := hbss
          omega
    · rw [if_neg hlt] at hlo
      have hlo' : ph.pVa ≤ a / 2 ^ 12 * 2 ^ 12 := hlo
      rw [bssStart, if_neg hlt]
      refine .inr (.inl ⟨by omega, ?_, hend⟩)
      show (ph.pVa + (2 ^ 12 - 1)) / 2 ^ 12 * 2 ^ 12 ≤ a
      omega

end

end ProgHdr

/-! ## The segments of a file -/

/-- The headers from the `i`-th on that are of type `ELF_PT_LOAD` -/
def segHdrs (b : Bytes) (phoff : Nat) : Nat → Nat → List ProgHdr
  | 0, _     => []
  | n + 1, i =>
    let ph := progHdr fun j => b ((phoff + i * progHdrSize) % 2 ^ 64 + j)
    if ph.pType ≠ elfPtLoad then segHdrs b phoff n (i + 1) else ph :: segHdrs b phoff n (i + 1)

def ElfFile.segments (file : ElfFile) : List ProgHdr :=
  segHdrs file.bytes (elfHdr file.bytes).ePhoff (elfHdr file.bytes).ePhnum 0

def segsImage (b : Bytes) : List ProgHdr → Known → Known
  | [], k        => k
  | ph :: phs, k => segsImage b phs (ph.image b k)

theorem small_segHdrs (b : Bytes) (phoff : Nat) : ∀ n i, ∀ ph ∈ segHdrs b phoff n i, ph.Small := by
  intro n
  induction n with
  | zero => exact fun i ph hph => absurd hph List.not_mem_nil
  | succ n ih =>
    intro i
    rw [segHdrs]
    split
    · exact ih (i + 1)
    · exact List.forall_mem_cons.mpr ⟨ProgHdr.small_progHdr _, ih (i + 1)⟩

/-- Where no segment has its pages, nothing is written. -/
theorem segsImage_out {b : Bytes} {a : Nat} (phs : List ProgHdr) : ∀ k, (∀ ph ∈ phs, ph.pVa < ph.stop → ph.stop ≤ ph.stopMem) →
    (∀ ph ∈ phs, ¬ ph.Pages (a / pgsize)) → segsImage b phs k a = k a := by
  induction phs with
  | nil => exact fun k _ _ => rfl
  | cons ph phs ih =>
    intro k hord hout
    rw [List.forall_mem_cons] at hord hout
    rw [segsImage, ih _ hord.2 hout.2, ProgHdr.image_out hord.1 hout.1]

/-- In the pages of a segment it is what the segment writes, as the pages of the others are apart. -/
theorem segsImage_in {b : Bytes} {a : Nat} {ph : ProgHdr} (phs : List ProgHdr) : ∀ k,
    (∀ ph ∈ phs, ph.pVa < ph.stop → ph.stop ≤ ph.stopMem) → (phs.Pairwise fun a b => ∀ n, a.Pages n → ¬ b.Pages n) →
    ph ∈ phs → ph.Pages (a / pgsize) → ∃ k', segsImage b phs k a = ph.image b k' a := by
  induction phs with
  | nil => exact fun k _ _ hph => absurd hph List.not_mem_nil
  | cons q phs ih =>
    intro k hord hapart hph hn
    rw [List.forall_mem_cons] at hord
    rw [List.pairwise_cons] at hapart
    rcases List.mem_cons.mp hph with rfl | hph
    · exact ⟨k, segsImage_out phs _ hord.2 fun p hp => hapart.1 p hp _ hn⟩
    · exact ih _ hord.2 hapart.2 hph hn

/-! ## The stack -/

/-- The length of an argument, as far as `load_icode` looks -/
def argLen (kargv : Nat → Bytes) (i : Nat) : Nat := strnlen (kargv i) (execMaxArgLen + 1) 0

/-- The bytes of `n` arguments from the `i`-th on, each with its end -/
def argBytes (kargv : Nat → Bytes) (n i : Nat) : Nat := ((List.range' i n).map fun j => argLen kargv j + 1).sum

/-- `user_vaddr_argv` -/
def argPtrs (kargv : Nat → Bytes) : Nat → Nat → Nat → List Nat
  | 0, _, _     => []
  | n + 1, i, a => (a - (argLen kargv i + 1)) :: argPtrs kargv n (i + 1) (a - (argLen kargv i + 1))

def pushedArgs (kargv : Nat → Bytes) : Nat → Nat → Nat → Known → Known
  | 0, _, _, k     => k
  | n + 1, i, a, k =>
    let top := a - (argLen kargv i + 1)
    pushedArgs kargv n (i + 1) top (k.put top a fun x => kargv i (x - top))

/-- The word `v` at `la` -/
def putWord (k : Known) (la v : Nat) : Known := k.put la (la + 8) fun x => putLe (fun _ => 0) 0 v 8 (x - la)

def pushedWords : List Nat → Nat → Known → Known
  | [], la, k        => putWord k la 0
  | v :: argv, la, k => pushedWords argv (la + 8) (putWord k la v)

/-- The known bytes once the arguments have been pushed. -/
def stackImage (argc : Nat) (kargv : Nat → Bytes) (k : Known) : Known :=
  pushedWords (argPtrs kargv argc 0 ustackTop) (argvTop argc (ustackTop - argBytes kargv argc 0))
    (pushedArgs kargv argc 0 ustackTop k)

/-- The four pages of the stack -/
def StackPages (n : Nat) : Prop := ustackTop - 4 * pgsize ≤ n * pgsize ∧ n * pgsize < ustackTop

/-- The arguments fill the stack. -/
def StackFilled (argc : Nat) (kargv : Nat → Bytes) : Prop := argBytes kargv argc 0 + 8 * (argc + 1) = 4 * pgsize

variable {kargv : Nat → Bytes} {argc n i a : Nat} {k : Known}

theorem argBytes_succ (kargv : Nat → Bytes) (n i : Nat) :
    argBytes kargv (n + 1) i = argLen kargv i + 1 + argBytes kargv n (i + 1) := by
  rw [argBytes, List.range'_succ, List.map_cons, List.sum_cons]
  rfl

theorem argBytes_le (kargv : Nat → Bytes) (n : Nat) : ∀ i, argBytes kargv n i ≤ (execMaxArgLen + 2) * n := by
  induction n with
  | zero => exact fun i => Nat.le_refl 0
  | succ n ih =>
    intro i
    have hlen : argLen kargv i ≤ 0 + (execMaxArgLen + 1) := strnlen_le (kargv i) (execMaxArgLen + 1) 0
    have hrest := ih (i + 1)
    rw [argBytes_succ, Nat.mul_succ]
    omega

theorem argPtrs_length (kargv : Nat → Bytes) (n : Nat) : ∀ i a, (argPtrs kargv n i a).length = n := by
  induction n with
  | zero => exact fun i a => rfl
  | succ n ih =>
    intro i a
    rw [argPtrs, List.length_cons, ih]

theorem pushedArgs_ne_none {x : Nat} : ∀ n i a (k : Known), pushedArgs kargv n i a k x ≠ none ↔
    (a - argBytes kargv n i ≤ x ∧ x < a) ∨ k x ≠ none := by
  intro n
  induction n with
  | zero =>
    intro i a k
    constructor
    · exact .inr
    · rintro (⟨hlo, hhi⟩ | hold)
      · have : a ≤ x := hlo
        omega
      · exact hold
  | succ n ih =>
    intro i a k
    rw [pushedArgs, ih, put_ne_none, argBytes_succ, ← or_assoc]
    refine or_congr_left ?_
    omega

theorem pushedWords_ne_none {x : Nat} (argv : List Nat) : ∀ la (k : Known), pushedWords argv la k x ≠ none ↔
    (la ≤ x ∧ x < la + 8 * (argv.length + 1)) ∨ k x ≠ none := by
  induction argv with
  | nil =>
    intro la k
    show putWord k la 0 x ≠ none ↔ (la ≤ x ∧ x < la + 8) ∨ k x ≠ none
    exact put_ne_none
  | cons v argv ih =>
    intro la k
    rw [pushedWords, ih, putWord, put_ne_none, ← or_assoc, List.length_cons]
    refine or_congr_left ?_
    omega

theorem stackImage_ne_none {x : Nat} : stackImage argc kargv k x ≠ none ↔
    (argvTop argc (ustackTop - argBytes kargv argc 0) ≤ x ∧
      x < argvTop argc (ustackTop - argBytes kargv argc 0) + 8 * (argc + 1)) ∨
    (ustackTop - argBytes kargv argc 0 ≤ x ∧ x < ustackTop) ∨ k x ≠ none := by
  rw [stackImage, pushedWords_ne_none, argPtrs_length, pushedArgs_ne_none]

/-- Elsewhere nothing is pushed. -/
theorem pushedArgs_out {x : Nat} : ∀ n i a (k : Known), x < a - argBytes kargv n i ∨ a ≤ x → pushedArgs kargv n i a k x = k x := by
  intro n
  induction n with
  | zero => exact fun i a k _ => rfl
  | succ n ih =>
    intro i a k h
    rw [argBytes_succ] at h
    rw [pushedArgs, ih _ _ _ (by omega), put_out (by omega)]

theorem pushedWords_out {x : Nat} (argv : List Nat) : ∀ la (k : Known), x < la ∨ la + 8 * (argv.length + 1) ≤ x →
    pushedWords argv la k x = k x := by
  induction argv with
  | nil =>
    intro la k h
    have h' : x < la ∨ la + 8 ≤ x := h
    rw [pushedWords, putWord, put_out (by omega)]
  | cons v argv ih =>
    intro la k h
    rw [List.length_cons] at h
    rw [pushedWords, ih _ _ (by omega), putWord, put_out (by omega)]

theorem stackImage_out {x : Nat} (hend : argvTop argc (ustackTop - argBytes kargv argc 0) + 8 * (argc + 1) ≤
    ustackTop - argBytes kargv argc 0) (h : x < argvTop argc (ustackTop - argBytes kargv argc 0) ∨ ustackTop ≤ x) :
    stackImage argc kargv k x = k x := by
  have hlen := argPtrs_length kargv argc 0 ustackTop
  rw [stackImage, pushedWords_out _ _ _ (by rw [hlen]; omega), pushedArgs_out _ _ _ _ (by omega)]

theorem stackPages_iff {x : Nat} : StackPages (x / pgsize) ↔ 0x7fffc000 ≤ x ∧ x < 0x80000000 := by
  show 0x80000000 - 4 * 2 ^ 12 ≤ x / 2 ^ 12 * 2 ^ 12 ∧ x / 2 ^ 12 * 2 ^ 12 < 0x80000000 ↔ _
  omega

/-- **Which arguments fill the stack**, if they fit. -/
theorem stackImage_full (hlow : ustackTop - 4 * pgsize ≤ argvTop argc (ustackTop - argBytes kargv argc 0))
    (hk : ∀ x, StackPages (x / pgsize) → k x = none) :
    Full pgsize StackPages (stackImage argc kargv k) ↔ StackFilled argc kargv := by
  generalize hB : argBytes kargv argc 0 = B at *
  have hsp : argvTop argc (ustackTop - B) = (0x80000000 - B - (argc + 1) * 8) / 16 * 16 := rfl
  have hlow' : 0x7fffc000 ≤ argvTop argc (ustackTop - B) := hlow
  have hbyte : ∀ x, stackImage argc kargv k x ≠ none ↔
      (argvTop argc (ustackTop - B) ≤ x ∧ x < argvTop argc (ustackTop - B) + 8 * (argc + 1)) ∨
        (0x80000000 - B ≤ x ∧ x < 0x80000000) ∨ k x ≠ none := by
    intro x
    rw [stackImage_ne_none, hB]
    rfl
  show _ ↔ argBytes kargv argc 0 + 8 * (argc + 1) = 4 * 2 ^ 12
  rw [hB]
  generalize argvTop argc (ustackTop - B) = sp at *
  have hin : ∀ x, 0x7fffc000 ≤ x → x < 0x80000000 → Full pgsize StackPages (stackImage argc kargv k) →
      (sp ≤ x ∧ x < sp + 8 * (argc + 1)) ∨ (0x80000000 - B ≤ x ∧ x < 0x80000000) := by
    intro x hlo hhi h
    have hpage : StackPages (x / pgsize) := stackPages_iff.mpr ⟨hlo, hhi⟩
    rcases (hbyte x).mp (h x hpage) with hword | harg | hold
    · exact .inl hword
    · exact .inr harg
    · exact absurd (hk x hpage) hold
  constructor
  · intro h
    -- the lowest address of the stack, and the one behind the words
    have hfirst := hin 0x7fffc000 (by omega) (by omega) h
    have hnext := hin (sp + 8 * (argc + 1))
    by_cases hend : sp + 8 * (argc + 1) < 0x80000000
    · have := hnext (by omega) hend h
      omega
    · omega
  · intro h x hx
    obtain ⟨hlo, hhi⟩ := stackPages_iff.mp hx
    rw [hbyte]
    omega

end Ucore
