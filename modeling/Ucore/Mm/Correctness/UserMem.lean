import Ucore.Mm.Correctness.MmMap
import Ucore.Mm.UserMem

/-!
# `Mm.Correctness.UserMem` — what `user_mem_check` lets through

The areas are sorted and apart, so an address is in one area at most, and `find_vma` finds it whatever is in the cache. The loop
looks at the first address of the range in each area. That is enough: the flags are those of the area, and if the first address is
not in the first page of a stack area, then no later one is.
-/

namespace Ucore

variable {s : Vm} {m addr len start stop a : Nat} {v w : Vma} {write : Bool} {x : Mm}

/-! ## Looking areas up -/

/-- The scan of the list that `find_vma` saves itself if it can. -/
def Mm.scan (x : Mm) (addr : Nat) : Option Vma := x.mmapList.find? fun v => v.Contains addr

/-- **The cache changes nothing.** -/
theorem Mm.Sorted.findVma_eq (h : x.Sorted) (addr : Nat) : x.findVma addr = x.scan addr := by
  cases hfind : x.findVma addr with
  | none =>
    refine (List.find?_eq_none.mpr fun w hw hcon => ?_).symm
    exact Mm.find_none hfind hw (of_decide_eq_true hcon)
  | some v =>
    obtain ⟨hv, hcon⟩ := h.find_some hfind
    cases hscan : x.scan addr with
    | none => exact absurd (decide_eq_true hcon) (List.find?_eq_none.mp hscan v hv)
    | some w =>
      have hw : decide (w.Contains addr) = true := List.find?_some (p := fun w : Vma => decide (w.Contains addr)) hscan
      rw [h.unique hv (List.mem_of_find?_eq_some hscan) hcon (of_decide_eq_true hw)]

/-! ## The loop -/

/-- A byte of the area may be read, or written; the first page of a stack may not be written. -/
def Vma.Allows (v : Vma) (write : Bool) (a : Nat) : Prop :=
  v.vmFlags.allow write = true ∧ (write = true → v.vmFlags.stack = true → v.vmStart + pgsize ≤ a)

def Mm.Permits (x : Mm) (write : Bool) (a : Nat) : Prop := ∃ v ∈ x.mmapList, v.Contains a ∧ v.Allows write a

theorem Mm.permits_congr {y : Mm} (h : y.mmapList = x.mmapList) : y.Permits write a ↔ x.Permits write a := by
  rw [Mm.Permits, h]
  rfl

/-- The areas that end behind an address -/
def Mm.behind (x : Mm) (start : Nat) : List Vma := x.mmapList.filter fun v => start < v.vmEnd

/-- Fewer areas end behind the end of one of them. -/
theorem Mm.behind_lt (hv : v ∈ x.mmapList) (hlt : start < v.vmEnd) : (x.behind v.vmEnd).length < (x.behind start).length := by
  have hsub : x.behind v.vmEnd = (x.behind start).filter fun w => v.vmEnd < w.vmEnd := by
    rw [Mm.behind, Mm.behind, List.filter_filter]
    refine List.filter_congr fun w _ => ?_
    by_cases h : v.vmEnd < w.vmEnd
    · rw [decide_eq_true h, decide_eq_true (hlt.trans h)]
      rfl
    · rw [decide_eq_false h]
      rfl
  rw [hsub, List.length_filter_lt_length_iff_exists]
  refine ⟨v, List.mem_filter.mpr ⟨hv, decide_eq_true hlt⟩, ?_⟩
  rw [decide_eq_true_iff]
  exact Nat.lt_irrefl _

/-- What is true of the first address in an area is true of the others. -/
theorem Vma.Allows.mono (h : v.Allows write start) (hle : start ≤ a) : v.Allows write a :=
  ⟨h.1, fun hw hs => (h.2 hw hs).trans hle⟩

/-- **The loop** ends, and returns true if and only if all bytes are permitted. -/
theorem userMemCheckFrom_spec (write : Bool) (hstop : stop ≤ userTop) : ∀ fuel start (s : Vm), (s.mm m).Sorted →
    ((s.mm m).behind start).length < fuel → ∃ r s', userMemCheckFrom m write stop fuel start s = .ok r s' ∧ s.SameAreas s' m ∧
      (r = true ↔ ∀ a, start ≤ a → a < stop → (s.mm m).Permits write a) := by
  intro fuel
  induction fuel with
  | zero => exact fun start s _ hfuel => absurd hfuel (Nat.not_lt_zero _)
  | succ fuel ih =>
    intro start s hsorted hfuel
    rw [userMemCheckFrom]
    by_cases hlt : start < stop
    · rw [if_pos hlt, Proc.bind_ok (findVma_run m start s)]
      have hsame := Vm.SameAreas.found hsorted start
      -- the byte at `start` is not permitted
      have hno : ¬ (s.mm m).Permits write start → ∃ r s', (pure false : VmM Bool) (s.setMm m ((s.mm m).found start)) = .ok r s' ∧
          s.SameAreas s' m ∧ (r = true ↔ ∀ a, start ≤ a → a < stop → (s.mm m).Permits write a) := by
        intro hno
        exact ⟨false, _, rfl, hsame, iff_of_false Bool.false_ne_true fun hall => hno (hall start (Nat.le_refl start) hlt)⟩
      cases hfind : (s.mm m).findVma start with
      | none =>
        refine hno ?_
        rintro ⟨w, hw, hcon, -⟩
        exact Mm.find_none hfind hw hcon
      | some v =>
        obtain ⟨hv, hcon⟩ := hsorted.find_some hfind
        have hpermits : (s.mm m).Permits write start ↔ v.Allows write start := by
          constructor
          · rintro ⟨w, hw, hwcon, hallow⟩
            rw [hsorted.unique hv hw hcon hwcon]
            exact hallow
          · exact fun hallow => ⟨v, hv, hcon, hallow⟩
        have hpage : (v.vmStart + pgsize) % 2 ^ 64 = v.vmStart + pgsize := by
          have h1 := hcon.1
          have htop : userTop = 2 ^ 31 := rfl
          have hpg : pgsize = 4096 := rfl
          refine Nat.mod_eq_of_lt ?_
          omega
        dsimp only
        rw [if_neg (Nat.not_lt.mpr hcon.1), hpage]
        by_cases hflag : v.vmFlags.allow write = false
        · rw [if_pos hflag]
          refine hno fun h => ?_
          rw [(hpermits.mp h).1] at hflag
          cases hflag
        · rw [if_neg hflag]
          by_cases hguard : write = true ∧ v.vmFlags.stack = true ∧ start < v.vmStart + pgsize
          · rw [if_pos hguard]
            refine hno fun h => ?_
            exact absurd ((hpermits.mp h).2 hguard.1 hguard.2.1) (Nat.not_le.mpr hguard.2.2)
          · rw [if_neg hguard]
            have hallow : v.Allows write start := by
              refine ⟨Bool.not_eq_false _ ▸ hflag, fun hw hs => ?_⟩
              by_contra hlow
              exact hguard ⟨hw, hs, Nat.not_le.mp hlow⟩
            -- the rest of the range begins behind the area
            have hfuel' : (((s.setMm m ((s.mm m).found start)).mm m).behind v.vmEnd).length < fuel := by
              have hless := Mm.behind_lt hv hcon.2
              rw [Mm.behind, hsame.list]
              exact lt_of_lt_of_le hless (Nat.le_of_lt_succ hfuel)
            obtain ⟨r, s', hrun, hsame', hr⟩ := ih v.vmEnd _ hsame.sorted hfuel'
            refine ⟨r, s', hrun, hsame.trans hsame', hr.trans ?_⟩
            constructor
            · intro hrest a hlo hhi
              by_cases hin : a < v.vmEnd
              · exact ⟨v, hv, ⟨hcon.1.trans hlo, hin⟩, hallow.mono hlo⟩
              · exact (Mm.permits_congr hsame.list).mp (hrest a (Nat.not_lt.mp hin) hhi)
            · intro hall a hlo hhi
              exact (Mm.permits_congr hsame.list).mpr (hall a (hcon.2.le.trans hlo) hhi)
    · rw [if_neg hlt]
      exact ⟨true, s, rfl, .refl hsorted, iff_of_true rfl fun a hlo hhi => absurd (lt_of_le_of_lt hlo hhi) hlt⟩

/-! ## `user_mem_check` -/

/-- What a process may read, or write: a range of user space all of which is permitted. -/
def Mm.Accessible (x : Mm) (addr len : Nat) (write : Bool) : Prop :=
  addr + len < 2 ^ 64 ∧ userBase ≤ addr ∧ addr + len ≤ userTop ∧ ∀ a, addr ≤ a → a < addr + len → x.Permits write a

/-- A range that wraps has its end before its start. -/
theorem userAccess_iff (haddr : addr < 2 ^ 64) (hlen : 0 < len) (hsmall : len < 2 ^ 64) :
    UserAccess addr ((addr + len) % 2 ^ 64) ↔ addr + len < 2 ^ 64 ∧ userBase ≤ addr ∧ addr + len ≤ userTop := by
  by_cases hsum : addr + len < 2 ^ 64
  · rw [Nat.mod_eq_of_lt hsum]
    constructor
    · exact fun h => ⟨hsum, h.1, h.2.2⟩
    · exact fun h => ⟨h.2.1, Nat.lt_add_of_pos_right hlen, h.2.2⟩
  · refine iff_of_false ?_ fun h => hsum h.1
    rintro ⟨-, hlt, -⟩
    omega

theorem userMemCheck_spec (len : Nat) (write : Bool) (hsorted : (s.mm m).Sorted) (haddr : addr < 2 ^ 64) (hsmall : len < 2 ^ 64) :
    ∃ r s', userMemCheck (some m) addr len write s = .ok r s' ∧ s.SameAreas s' m ∧
      (r = true ↔ 0 < len ∧ (s.mm m).Accessible addr len write) := by
  rw [userMemCheck]
  by_cases hac : UserAccess addr ((addr + len) % 2 ^ 64)
  · have hlen : 0 < len := by
      rcases Nat.eq_zero_or_pos len with rfl | hpos
      · have hlt := hac.2.1
        rw [Nat.add_zero, Nat.mod_eq_of_lt haddr] at hlt
        exact absurd hlt (Nat.lt_irrefl addr)
      · exact hpos
    obtain ⟨hsum, hlow, htop⟩ := (userAccess_iff haddr hlen hsmall).mp hac
    have hfuel : ((s.mm m).behind addr).length < (s.mm m).mmapList.length + 1 := Nat.lt_succ_of_le (List.length_filter_le _ _)
    obtain ⟨r, s', hrun, hsame, hr⟩ := userMemCheckFrom_spec write htop _ addr s hsorted hfuel
    rw [if_neg (not_not_intro hac), Proc.get_bind, Nat.mod_eq_of_lt hsum]
    refine ⟨r, s', hrun, hsame, hr.trans ⟨fun h => ⟨hlen, hsum, hlow, htop, h⟩, fun h => h.2.2.2.2⟩⟩
  · rw [if_pos hac]
    refine ⟨false, s, rfl, .refl hsorted, iff_of_false Bool.false_ne_true ?_⟩
    rintro ⟨hlen, hsum, hlow, htop, -⟩
    exact hac ((userAccess_iff haddr hlen hsmall).mpr ⟨hsum, hlow, htop⟩)

theorem Mm.accessible_congr {y : Mm} (h : y.mmapList = x.mmapList) :
    y.Accessible addr len write ↔ x.Accessible addr len write := by
  rw [Mm.Accessible, Mm.Accessible]
  simp only [Mm.permits_congr h]

/-- A range in two parts. -/
theorem Mm.accessible_add {n k : Nat} :
    x.Accessible addr (n + k) write ↔ x.Accessible addr n write ∧ x.Accessible (addr + n) k write := by
  constructor
  · rintro ⟨hsum, hlow, htop, hall⟩
    refine ⟨⟨by omega, hlow, by omega, fun a hlo hhi => hall a hlo (by omega)⟩, by omega, by omega, by omega, fun a hlo hhi => ?_⟩
    exact hall a (by omega) (by omega)
  · rintro ⟨⟨-, hlow, -, hfirst⟩, hsum, -, htop, hrest⟩
    refine ⟨by omega, hlow, by omega, fun a hlo hhi => ?_⟩
    by_cases h : a < addr + n
    · exact hfirst a hlo h
    · exact hrest a (Nat.not_lt.mp h) (by omega)

/-! ## Copies -/

/-- Both copies are made if and only if the process may do so, and otherwise nothing is written. -/
theorem copyFromUser_spec (mem dst : Bytes) (hsorted : (s.mm m).Sorted) (haddr : addr < 2 ^ 64) (hlen : 0 < len)
    (hsmall : len < 2 ^ 64) : ∃ s', s.SameAreas s' m ∧
      ((s.mm m).Accessible addr len false ∧ copyFromUser (some m) mem dst addr len false s = .ok (true, memcpy dst 0 mem addr len) s' ∨
        ¬ (s.mm m).Accessible addr len false ∧ copyFromUser (some m) mem dst addr len false s = .ok (false, dst) s') := by
  obtain ⟨r, s', hrun, hsame, hr⟩ := userMemCheck_spec len false hsorted haddr hsmall
  rw [and_iff_right hlen] at hr
  refine ⟨s', hsame, ?_⟩
  rw [copyFromUser, Proc.bind_ok hrun]
  cases r with
  | true => exact .inl ⟨hr.mp rfl, rfl⟩
  | false => exact .inr ⟨fun h => Bool.false_ne_true (hr.mpr h), rfl⟩

theorem copyToUser_spec (mem src : Bytes) (hsorted : (s.mm m).Sorted) (haddr : addr < 2 ^ 64) (hlen : 0 < len)
    (hsmall : len < 2 ^ 64) : ∃ s', s.SameAreas s' m ∧
      ((s.mm m).Accessible addr len true ∧ copyToUser (some m) mem addr src len s = .ok (true, memcpy mem addr src 0 len) s' ∨
        ¬ (s.mm m).Accessible addr len true ∧ copyToUser (some m) mem addr src len s = .ok (false, mem) s') := by
  obtain ⟨r, s', hrun, hsame, hr⟩ := userMemCheck_spec len true hsorted haddr hsmall
  rw [and_iff_right hlen] at hr
  refine ⟨s', hsame, ?_⟩
  rw [copyToUser, Proc.bind_ok hrun]
  cases r with
  | true => exact .inl ⟨hr.mp rfl, rfl⟩
  | false => exact .inr ⟨fun h => Bool.false_ne_true (hr.mpr h), rfl⟩

/-! ## After any lookups -/

/-- A history of `find_vma` -/
def lookups (m : Nat) : List Nat → VmM Unit
  | []            => pure ()
  | addr :: addrs => do
    let _ ← findVma m addr
    lookups m addrs

theorem lookups_run (addrs : List Nat) : ∀ s : Vm, (s.mm m).Sorted → ∃ s', lookups m addrs s = .ok () s' ∧ s.SameAreas s' m := by
  induction addrs with
  | nil => exact fun s h => ⟨s, rfl, .refl h⟩
  | cons addr addrs ih =>
    intro s h
    have hsame := Vm.SameAreas.found h addr
    obtain ⟨s', hrun, hsame'⟩ := ih _ hsame.sorted
    refine ⟨s', ?_, hsame.trans hsame'⟩
    rw [lookups, Proc.bind_ok (findVma_run m addr s)]
    exact hrun

/-- **`user_mem_check`**, after any lookups: it ends, and lets a range through if and only if all of it is permitted. Before it and
    after it `find_vma` finds what a scan of the list does. -/
theorem user_mem_check (hnonempty : ∀ v ∈ (s.mm m).mmapList, v.vmStart < v.vmEnd)
    (hsorted : (s.mm m).mmapList.Pairwise fun a b => a.vmEnd ≤ b.vmStart) (hcache : (s.mm m).mmapCache = none) (addrs : List Nat)
    (haddr : addr < 2 ^ 64) (hlen : 0 < len) (hsmall : len < 2 ^ 64) (write : Bool) :
    ∃ s1 r s2, lookups m addrs s = .ok () s1 ∧ userMemCheck (some m) addr len write s1 = .ok r s2 ∧
      (r = true ↔ (s.mm m).Accessible addr len write) ∧
      ∀ a, (s1.mm m).findVma a = (s.mm m).scan a ∧ (s2.mm m).findVma a = (s.mm m).scan a := by
  have h : (s.mm m).Sorted := ⟨hnonempty, hsorted, fun v hv => by rw [hcache] at hv; cases hv⟩
  obtain ⟨s1, hrun, h1⟩ := lookups_run addrs s h
  obtain ⟨r, s2, hcheck, h2, hr⟩ := userMemCheck_spec len write h1.sorted haddr hsmall
  have hsame : (s1.mm m).Accessible addr len write ↔ (s.mm m).Accessible addr len write := Mm.accessible_congr h1.list
  refine ⟨s1, r, s2, hrun, hcheck, ?_, fun a => ⟨?_, ?_⟩⟩
  · rw [hr, hsame]
    exact and_iff_right hlen
  · rw [h1.sorted.findVma_eq, Mm.scan, h1.list]
    rfl
  · rw [h2.sorted.findVma_eq, Mm.scan, h2.list, h1.list]
    rfl

/-- Data, and a stack right behind it -/
def dataStack : Vm :=
  noAreas.setMm 1
    { Mm.empty with
      mmapList :=
        [{ obj := 2, vmStart := 0x400000, vmEnd := 0x402000, vmFlags := dataFlags },
          { obj := 3, vmStart := 0x402000, vmEnd := 0x408000, vmFlags := { dataFlags with stack := true } }] }

/-- A write from the data into the stack, after a lookup in the stack -/
theorem user_mem_check_dataStack : ∃ s1 r s2, lookups 1 [0x405000] dataStack = .ok () s1 ∧
    userMemCheck (some 1) 0x401000 0x3000 true s1 = .ok r s2 ∧
    (r = true ↔ (dataStack.mm 1).Accessible 0x401000 0x3000 true) ∧
    ∀ a, (s1.mm 1).findVma a = (dataStack.mm 1).scan a ∧ (s2.mm 1).findVma a = (dataStack.mm 1).scan a := by
  refine user_mem_check ?_ ?_ rfl [0x405000] (by decide) (by decide) (by decide) true
  · decide
  · decide

end Ucore
