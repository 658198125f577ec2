import Ucore.Process.Correctness.LoadBlind
import Ucore.Process.Correctness.LoadSpace

/-!
# `Process.Correctness.ExecFresh` — what a new program can read of the pages it got

`load_icode` clears the pages of the BSS only. From two states that differ in what the free pages hold it makes the same address
space if every byte of every page is written: each segment with file bytes begins with a page, and ends with one or goes on with
BSS; and the arguments fill the stack. Otherwise there is an address at which the process reads what was there before.
-/

namespace Ucore

open PageMem Known

variable {boot : Nat → Pte} {file : ElfFile} {argc : Nat} {kargv : Nat → Bytes} {s s' t : Exec}

/-- The states differ in nothing but what the free pages hold. -/
def Exec.OnlyFree (s s' : Exec) : Prop := ∃ data table, s' = s.modMem (fun mem => { mem with data := data, table := table }) ∧
  ∀ p, p ∉ s.vm.mem.free → data p = s.vm.mem.data p ∧ table p = s.vm.mem.table p

/-- A new program can read nothing that depends on what the free pages held. -/
def Fresh (boot : Nat → Pte) (file : ElfFile) (argc : Nat) (kargv : Nat → Bytes) (s : Exec) : Prop :=
  ∀ s' t t', s.OnlyFree s' → loadIcode boot file argc kargv s = .ok () t → loadIcode boot file argc kargv s' = .ok () t' →
    ∀ a, t.user a = t'.user a

/-- Every byte of the user pages is written. -/
def AllWritten (file : ElfFile) (argc : Nat) (kargv : Nat → Bytes) : Prop :=
  (∀ ph ∈ file.segments, ph.Filled) ∧ StackFilled argc kargv

theorem Exec.OnlyFree.ready (h : s.OnlyFree s') (hready : s.Ready) : s'.Ready := by
  obtain ⟨data, table, rfl, -⟩ := h
  exact hready

/-- If all is written, the bytes are those of the image. -/
theorem fresh_of_allWritten (hboot : ∀ i < 2, (boot i).v = false) (hready : s.Ready) (hall : AllWritten file argc kargv) :
    Fresh boot file argc kargv s := by
  intro s' t t' hfree hrun hrun' a
  have hw : ∀ ph ∈ file.segments, ph.Filled ∨ ¬ ph.Wraps := fun ph hph => .inl (hall.1 ph hph)
  obtain ⟨m, u, hu, h, -, -, -, -, hfull⟩ := loadIcode_ok hboot hready hw hrun
  obtain ⟨m', u', hu', h', -, -, -, -, -⟩ := loadIcode_ok hboot (hfree.ready hready) hw hrun'
  by_cases hN : LoadPages file (a / pgsize)
  · obtain ⟨b, hk⟩ := Option.ne_none_iff_exists'.mp (hfull.mpr hall a hN)
    rw [h.user_known hu hk, h'.user_known hu' hk]
  · rw [h.user_none hu hN, h'.user_none hu' hN]

/-- If not, some byte is what it was. -/
theorem allWritten_of_fresh (hboot : ∀ i < 2, (boot i).v = false) (hready : s.Ready)
    (hplain : ∀ ph ∈ file.segments, ¬ ph.Wraps) (hrun : loadIcode boot file argc kargv s = .ok () t)
    (hfresh : Fresh boot file argc kargv s) : AllWritten file argc kargv := by
  have hw : ∀ ph ∈ file.segments, ph.Filled ∨ ¬ ph.Wraps := fun ph hph => .inr (hplain ph hph)
  obtain ⟨m, u, hu, h, -, -, -, -, hfull⟩ := loadIcode_ok hboot hready hw hrun
  refine hfull.mp fun a hN hnone => ?_
  obtain ⟨p, hp, hmaps, huser⟩ := h.user_some hu hN
  rw [hnone] at huser
  -- another byte in the free page that is mapped there
  let b : UInt8 := if s.vm.mem.data p (a % pgsize) = 0 then 1 else 0
  have hb : b ≠ s.vm.mem.data p (a % pgsize) := by
    show (if s.vm.mem.data p (a % pgsize) = 0 then 1 else 0 : UInt8) ≠ _
    split
    · next hz =>
      rw [hz]
      decide
    · next hz => exact fun heq => hz heq.symm
  let data := Function.update s.vm.mem.data p (Function.update (s.vm.mem.data p) (a % pgsize) b)
  have hfree : s.OnlyFree (s.setAll data) := by
    refine ⟨data, s.vm.mem.table, rfl, fun q hq => ⟨?_, rfl⟩⟩
    refine Function.update_of_ne ?_ _ _
    rintro rfl
    exact hp hq
  obtain ⟨t', hrun', x, rfl⟩ := (loadIcode_blind boot file argc kargv).ok ⟨data, rfl⟩ hrun
  obtain ⟨m', u', hu', h', -, -, -, -, -⟩ := loadIcode_ok hboot (hfree.ready hready) hw hrun'
  obtain ⟨p', -, hmaps', huser'⟩ := h'.user_some hu' hN
  rw [hnone] at huser'
  -- the tables are the same, and so is the page
  have htables : (t.setAll x).vm.mem.maps = t.vm.mem.maps := maps_congr rfl
  rw [htables] at hmaps'
  have hsame : p' = p := Option.some.inj (hmaps'.symm.trans hmaps)
  subst hsame
  have heq := hfresh _ _ _ hfree hrun hrun' a
  rw [huser, huser'] at heq
  have hbyte : s.vm.mem.data p' (a % pgsize) = data p' (a % pgsize) := Option.some.inj heq
  have hnew : data p' (a % pgsize) = b := by
    show Function.update s.vm.mem.data p' (Function.update (s.vm.mem.data p') (a % pgsize) b) p' (a % pgsize) = b
    rw [Function.update_self, Function.update_self]
  exact hb (hnew.symm.trans hbyte.symm)

/-! ## The exact condition -/

/-- A program without segments -/
def bareFile : ElfFile where
  bytes i :=
    match i with
    | 0 => 0x7f
    | 1 => 0x45
    | 2 => 0x4c
    | 3 => 0x46
    | _ => 0
  size := 64
  got offset len := min len (64 - offset)
  err _ _ := 0
  size_lt := by decide
  got_le _ _ := Nat.min_le_right _ _

theorem freeKernel_onlyFree (b b' : UInt8) : (freeKernel b).OnlyFree (freeKernel b') := by
  refine ⟨(freeKernel b').vm.mem.data, fun _ _ => .zero, rfl, fun p hp => ⟨?_, rfl⟩⟩
  have hlt : ¬ p < 16 := fun hlt => hp (Finset.mem_range.mpr hlt)
  funext i
  show (if p < 16 then b' else 0) = if p < 16 then b else 0
  rw [if_neg hlt, if_neg hlt]

end Ucore
