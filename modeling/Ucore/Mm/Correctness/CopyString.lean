import Ucore.Mm.Correctness.UserMem

/-!
# `Mm.Correctness.CopyString` — which strings `copy_string` copies

A chunk lies in one page, and areas are made of pages; so a chunk that the check lets through is one whose page is readable. The
string is copied if its end is among the first `maxn` bytes and all pages up to the one of its end are readable.
-/

namespace Ucore

variable {s : Vm} {m addr len src maxn off n j : Nat} {x : Mm} {mem dst : Bytes}

/-- All areas are made of pages. -/
def Mm.Aligned (x : Mm) : Prop := ∀ v ∈ x.mmapList, v.vmStart % pgsize = 0 ∧ v.vmEnd % pgsize = 0

/-- A page of user space that may be read. -/
def Mm.PageReadable (x : Mm) (n : Nat) : Prop :=
  userBase ≤ n * pgsize ∧ n < userPages ∧ ∀ a, a / pgsize = n → x.Permits false a

/-- One byte of a page may be read if all of them may. -/
theorem Mm.Aligned.permits_page {a b : Nat} (h : x.Aligned) (hab : a / pgsize = b / pgsize) (ha : x.Permits false a) :
    x.Permits false b := by
  obtain ⟨v, hv, ⟨hlo, hhi⟩, hallow⟩ := ha
  obtain ⟨hstart, hend⟩ := h v hv
  have hpg : pgsize = 4096 := rfl
  rw [hpg] at hab hstart hend
  exact ⟨v, hv, ⟨by omega, by omega⟩, hallow.1, fun hw => Bool.noConfusion hw⟩

/-- **A chunk** may be read if its page may. -/
theorem Mm.Aligned.accessible_iff (h : x.Aligned) (hlen : 0 < len) (hfit : addr % pgsize + len ≤ pgsize) :
    x.Accessible addr len false ↔ x.PageReadable (addr / pgsize) := by
  have hpg : pgsize = 4096 := rfl
  have hbase : userBase = 512 * 4096 := rfl
  have htop : userTop = 524288 * 4096 := rfl
  have hpages : userPages = 524288 := rfl
  rw [hpg] at hfit
  rw [Mm.PageReadable, hpg]
  constructor
  · rintro ⟨-, hlow, hhigh, hall⟩
    refine ⟨by omega, by omega, fun a ha => ?_⟩
    have hsame : addr / pgsize = a / pgsize := by
      rw [hpg]
      exact ha.symm
    exact h.permits_page hsame (hall addr (Nat.le_refl addr) (Nat.lt_add_of_pos_right hlen))
  · rintro ⟨hlow, hhigh, hall⟩
    refine ⟨by omega, by omega, by omega, fun a hlo hhi => hall a ?_⟩
    omega

/-! ## The loop -/

/-- The string at `src` ends with its byte `j`, and its pages may be read up to there. -/
structure Mm.StringAt (x : Mm) (mem : Bytes) (src maxn j : Nat) : Prop where
  lt : j < maxn
  zero : mem (src + j) = 0
  before : ∀ i < j, mem (src + i) ≠ 0
  pages : ∀ n, src / pgsize ≤ n → n ≤ (src + j) / pgsize → x.PageReadable n

/-- A string has one end. -/
theorem Mm.StringAt.unique {i : Nat} (h : x.StringAt mem src maxn i) (h' : x.StringAt mem src maxn j) : i = j := by
  rcases Nat.lt_trichotomy i j with hlt | heq | hlt
  · exact absurd h.zero (h'.before i hlt)
  · exact heq
  · exact absurd h'.zero (h.before j hlt)

theorem Mm.StringAt.congr {y : Mm} (hxy : y.mmapList = x.mmapList) : y.StringAt mem src maxn j ↔ x.StringAt mem src maxn j := by
  have hpage : ∀ n, y.PageReadable n ↔ x.PageReadable n := by
    intro n
    rw [PageReadable, PageReadable]
    simp only [Mm.permits_congr hxy]
  constructor
  · exact fun h => ⟨h.lt, h.zero, h.before, fun n hlo hhi => (hpage n).mp (h.pages n hlo hhi)⟩
  · exact fun h => ⟨h.lt, h.zero, h.before, fun n hlo hhi => (hpage n).mpr (h.pages n hlo hhi)⟩

/-- What comes back of a copy from `off` on. -/
def CopiedString (x : Mm) (mem dst : Bytes) (off src maxn : Nat) (r : Bool) (dst' : Bytes) : Prop :=
  (r = true ↔ ∃ j, x.StringAt mem src maxn j) ∧ (∀ j, x.StringAt mem src maxn j → dst' = memcpy dst off mem src (j + 1)) ∧
    ∀ i, i < off ∨ off + maxn ≤ i → dst' i = dst i

/-- There is no string: nothing more is written. -/
theorem copiedString_none (hno : ∀ j, ¬ x.StringAt mem src maxn j) : CopiedString x mem dst off src maxn false dst :=
  ⟨iff_of_false Bool.false_ne_true fun h => hno _ h.choose_spec, fun j h => absurd h (hno j), fun _ _ => rfl⟩

/-- A string without its first page -/
theorem Mm.StringAt.skip {part : Nat} (hpage : x.PageReadable (src / pgsize)) (hnext : (src + part) / pgsize = src / pgsize + 1)
    (hpart : part ≤ maxn) (hnonzero : ∀ i < part, mem (src + i) ≠ 0) :
    x.StringAt mem (src + part) (maxn - part) j ↔ x.StringAt mem src maxn (part + j) := by
  constructor
  · intro h
    refine ⟨?_, ?_, fun i hi => ?_, fun n hlo hhi => ?_⟩
    · have := h.lt
      omega
    · rw [← Nat.add_assoc]
      exact h.zero
    · by_cases hfirst : i < part
      · exact hnonzero i hfirst
      · have hrest := h.before (i - part) (by omega)
        have hpos : src + part + (i - part) = src + i := by omega
        rw [hpos] at hrest
        exact hrest
    · by_cases hfirst : n = src / pgsize
      · rw [hfirst]
        exact hpage
      · refine h.pages n (by omega) ?_
        rw [Nat.add_assoc]
        exact hhi
  · intro h
    refine ⟨?_, ?_, fun i hi => ?_, fun n hlo hhi => ?_⟩
    · have := h.lt
      omega
    · rw [Nat.add_assoc]
      exact h.zero
    · rw [Nat.add_assoc]
      exact h.before (part + i) (by omega)
    · refine h.pages n (by omega) ?_
      rw [← Nat.add_assoc]
      exact hhi

/-- The first chunk has no end of a string, and the rest is copied behind it. -/
theorem CopiedString.skip {y : Mm} {part : Nat} {r : Bool} {dst' : Bytes}
    (h : CopiedString y mem (memcpy dst off mem src part) (off + part) (src + part) (maxn - part) r dst') (hxy : y.mmapList = x.mmapList)
    (hpage : x.PageReadable (src / pgsize)) (hnext : (src + part) / pgsize = src / pgsize + 1) (hpart : part ≤ maxn)
    (hnonzero : ∀ i < part, mem (src + i) ≠ 0) : CopiedString x mem dst off src maxn r dst' := by
  obtain ⟨hr, hcopy, hout⟩ := h
  have hskip : ∀ j, y.StringAt mem (src + part) (maxn - part) j ↔ x.StringAt mem src maxn (part + j) := fun j =>
    (Mm.StringAt.congr hxy).trans (Mm.StringAt.skip hpage hnext hpart hnonzero)
  -- the string ends behind the chunk
  have hbehind : ∀ j, x.StringAt mem src maxn j → j = part + (j - part) := by
    intro j hj
    have hle : ¬ j < part := fun hlt => hnonzero j hlt hj.zero
    omega
  refine ⟨hr.trans ⟨?_, ?_⟩, fun j hj => ?_, fun i hi => ?_⟩
  · rintro ⟨j, hj⟩
    exact ⟨part + j, (hskip j).mp hj⟩
  · rintro ⟨j, hj⟩
    refine ⟨j - part, (hskip _).mpr ?_⟩
    rw [← hbehind j hj]
    exact hj
  · have hj' := hj
    rw [hbehind j hj] at hj'
    rw [hcopy _ ((hskip _).mpr hj'), memcpy_append, ← Nat.add_assoc, ← hbehind j hj]
  · rw [hout i (by omega), memcpy_out (by omega)]

/-- **The loop of `copy_string`**, from any place on. -/
theorem copyStringFrom_spec (mem : Bytes) : ∀ fuel off src maxn dst (s : Vm), (s.mm m).Sorted → (s.mm m).Aligned →
    src < 2 ^ 64 → maxn < 2 ^ 64 → (maxn + src % pgsize) / pgsize < fuel →
    ∃ r dst' s', copyStringFrom (some m) mem fuel dst off src maxn (pgsize - src % pgsize) s = .ok (r, dst') s' ∧
      CopiedString (s.mm m) mem dst off src maxn r dst' := by
  have hpg : pgsize = 4096 := rfl
  intro fuel
  induction fuel with
  | zero => exact fun off src maxn dst s _ _ _ _ hfuel => absurd hfuel (Nat.not_lt_zero _)
  | succ fuel ih =>
    intro off src maxn dst s hsorted haligned hsrc hmax hfuel
    rw [copyStringFrom]
    generalize hpart : (if pgsize - src % pgsize > maxn then maxn else pgsize - src % pgsize) = part
    have hsize : part = min maxn (pgsize - src % pgsize) := by
      rw [← hpart, hpg]
      split <;> omega
    rw [hpg] at hsize
    obtain ⟨ok, s1, hcheck, hsame, hok⟩ := userMemCheck_spec part false hsorted hsrc (by omega)
    dsimp only
    rw [Proc.bind_ok hcheck]
    by_cases hno : ok = false
    · rw [if_pos hno]
      refine ⟨false, dst, s1, rfl, copiedString_none fun j hj => ?_⟩
      have hlt := hj.lt
      have hpos : 0 < part := by omega
      rw [haligned.accessible_iff hpos (by rw [hpg]; omega)] at hok
      rw [hok.mpr ⟨hpos, hj.pages _ (Nat.le_refl _) (Nat.div_le_div_right (Nat.le_add_right src j))⟩] at hno
      cases hno
    · rw [if_neg hno]
      obtain ⟨hpos, hacc⟩ := hok.mp (Bool.not_eq_false _ ▸ hno)
      have hpage := (haligned.accessible_iff hpos (by rw [hpg]; omega)).mp hacc
      obtain ⟨-, hbefore, hend⟩ := strnlen_spec (fun i => mem (src + i)) part 0
      rw [Nat.zero_add] at hend
      by_cases hstr : strnlen (fun i => mem (src + i)) part 0 < part
      · rw [if_pos hstr]
        generalize strnlen (fun i => mem (src + i)) part 0 = alen at hbefore hend hstr ⊢
        have hat : (s.mm m).StringAt mem src maxn alen := by
          refine ⟨by omega, hend hstr, fun i hi => hbefore i (Nat.zero_le i) hi, fun n hlo hhi => ?_⟩
          have hn : n = src / pgsize := by
            rw [hpg] at hlo hhi ⊢
            omega
          rw [hn]
          exact hpage
        refine ⟨true, _, s1, rfl, iff_of_true rfl ⟨alen, hat⟩, fun j hj => ?_, fun i hi => memcpy_out (by omega)⟩
        rw [hj.unique hat]
      · rw [if_neg hstr]
        have hnonzero : ∀ i < part, mem (src + i) ≠ 0 := fun i hi => hbefore i (Nat.zero_le i) (by omega)
        by_cases hall : part = maxn
        · rw [if_pos hall]
          refine ⟨false, dst, s1, rfl, copiedString_none fun j hj => ?_⟩
          exact hnonzero j (by rw [hall]; exact hj.lt) hj.zero
        · rw [if_neg hall]
          -- the chunk ends with its page
          have hfull : part = 4096 - src % 4096 := by omega
          have hal : (src + part) % pgsize = 0 := by
            rw [hpg]
            omega
          have hnext : (src + part) / pgsize = src / pgsize + 1 := by
            rw [hpg]
            omega
          have hless : src / 4096 < 524288 := hpage.2.1
          have haligned' : (s1.mm m).Aligned := by
            rw [Mm.Aligned, hsame.list]
            exact haligned
          have hfuel' : (maxn - part + (src + part) % pgsize) / pgsize < fuel := by
            rw [hal, hpg]
            rw [hpg] at hfuel
            omega
          obtain ⟨r, dst', s', hrun, hcopied⟩ := ih (off + part) (src + part) (maxn - part) (memcpy dst off mem src part) s1 hsame.sorted
            haligned' (by omega) (by omega) hfuel'
          rw [hal, Nat.sub_zero] at hrun
          exact ⟨r, dst', s', hrun, hcopied.skip hsame.list hpage hnext (by omega) hnonzero⟩

/-! ## `copy_string` -/

/-- The first chunk goes up to the end of its page. -/
theorem firstPart (hsrc : src < 2 ^ 64) :
    (2 ^ 64 + rounddown ((src + pgsize) % 2 ^ 64) pgsize - src) % 2 ^ 64 = pgsize - src % pgsize := by
  have hpg : pgsize = 4096 := rfl
  rw [hpg]
  show (2 ^ 64 + ((src + 4096) % 2 ^ 64 - (src + 4096) % 2 ^ 64 % 4096) - src) % 2 ^ 64 = 4096 - src % 4096
  omega

/-- The first `maxn` bytes have an end of a string, and all pages up to it may be read. -/
def Mm.HasString (x : Mm) (mem : Bytes) (src maxn : Nat) : Prop :=
  ∃ j < maxn, mem (src + j) = 0 ∧ ∀ n, src / pgsize ≤ n → n ≤ (src + j) / pgsize → x.PageReadable n

/-- Then it has a first one. -/
theorem Mm.hasString_iff : x.HasString mem src maxn ↔ ∃ j, x.StringAt mem src maxn j := by
  constructor
  · rintro ⟨j, hlt, hzero, hpages⟩
    obtain ⟨-, hbefore, hend⟩ := strnlen_spec (fun i => mem (src + i)) maxn 0
    have hfirst : strnlen (fun i => mem (src + i)) maxn 0 < maxn := strnlen_lt_iff.mpr ⟨j, hlt, hzero⟩
    rw [Nat.zero_add] at hend
    refine ⟨_, hfirst, hend hfirst, fun i hi => hbefore i (Nat.zero_le i) hi, fun n hlo hhi => hpages n hlo (hhi.trans ?_)⟩
    have hle : strnlen (fun i => mem (src + i)) maxn 0 ≤ j := by
      by_contra hno
      exact hbefore j (Nat.zero_le j) (Nat.not_le.mp hno) hzero
    exact Nat.div_le_div_right (Nat.add_le_add_left hle src)
  · rintro ⟨j, hj⟩
    exact ⟨j, hj.lt, hj.zero, hj.pages⟩

/-- **`copy_string`** ends. It succeeds if and only if there is a string that may be read; then `dst` begins with the string and its
    end, and is otherwise as it was. At most `maxn` bytes are written. -/
theorem copy_string (hnonempty : ∀ v ∈ (s.mm m).mmapList, v.vmStart < v.vmEnd)
    (hsorted : (s.mm m).mmapList.Pairwise fun a b => a.vmEnd ≤ b.vmStart)
    (hcache : ∀ v, (s.mm m).mmapCache = some v → v ∈ (s.mm m).mmapList) (haligned : (s.mm m).Aligned) (hsrc : src < 2 ^ 64)
    (hmax : maxn < 2 ^ 64) (mem dst : Bytes) :
    ∃ r dst' s', copyString (some m) mem dst src maxn s = .ok (r, dst') s' ∧ (r = true ↔ (s.mm m).HasString mem src maxn) ∧
      (r = true → ∃ j < maxn, mem (src + j) = 0 ∧ (∀ i < j, mem (src + i) ≠ 0) ∧ (∀ i ≤ j, dst' i = mem (src + i)) ∧
        ∀ i, j < i → dst' i = dst i) ∧
      ∀ i, maxn ≤ i → dst' i = dst i := by
  have hpg : pgsize = 4096 := rfl
  have hfuel : (maxn + src % pgsize) / pgsize < maxn / pgsize + 2 := by
    rw [hpg]
    omega
  obtain ⟨r, dst', s', hrun, hr, hcopy, hout⟩ := copyStringFrom_spec mem _ 0 src maxn dst s ⟨hnonempty, hsorted, hcache⟩
    haligned hsrc hmax hfuel
  rw [copyString, firstPart hsrc]
  refine ⟨r, dst', s', hrun, hr.trans Mm.hasString_iff.symm, fun hok => ?_, fun i hi => hout i (.inr (by omega))⟩
  obtain ⟨j, hj⟩ := hr.mp hok
  refine ⟨j, hj.lt, hj.zero, hj.before, fun i hi => ?_, fun i hi => ?_⟩
  · rw [hcopy j hj, memcpy_in (by omega), Nat.sub_zero]
  · rw [hcopy j hj, memcpy_out (by omega)]

/-- A string that begins in the data and ends in the stack behind it -/
theorem copy_string_dataStack : ∃ r dst' s',
    copyString (some 1) (fun a => if a = 0x402003 then 0 else 1) (fun _ => 0) 0x401ffe 6 dataStack = .ok (r, dst') s' ∧
    (r = true ↔ (dataStack.mm 1).HasString (fun a => if a = 0x402003 then 0 else 1) 0x401ffe 6) ∧
    (r = true → ∃ j < 6, (if 0x401ffe + j = 0x402003 then 0 else 1 : UInt8) = 0 ∧
      (∀ i < j, (if 0x401ffe + i = 0x402003 then 0 else 1 : UInt8) ≠ 0) ∧
      (∀ i ≤ j, dst' i = if 0x401ffe + i = 0x402003 then 0 else 1) ∧ ∀ i, j < i → dst' i = 0) ∧
    ∀ i, 6 ≤ i → dst' i = 0 := by
  refine copy_string ?_ ?_ ?_ ?_ (by decide) (by decide) _ _
  · decide
  · decide
  · exact fun v hv => nomatch hv
  · rw [Mm.Aligned]
    decide

end Ucore
