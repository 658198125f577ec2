import Ucore.Driver.Correctness.DtbScan

/-!
# `Driver.Correctness.DtbBounds` — what the scan reads of a blob

A blob is any memory with a header at `dtb`. `blocks` is the view of it in which its structure and strings blocks may be read,
as far as they lie within `totalsize`; a scan that returns in this view has read nothing else, and it is the code's own scan
(`Stops.mono`). It returns exactly if the tokens lead to an end inside the blocks: the code bounds the scan by nothing.
-/

namespace Ucore.Dtb

/-- The bytes `[off, off + size)` of a blob of `total` bytes at `dtb` -/
def inBlock (dtb total off size a : Nat) : Bool := decide (dtb + off ≤ a ∧ a < dtb + off + size ∧ a < dtb + total ∧ a < 2 ^ 64)

/-- The structure and strings blocks that the header declares, within `totalsize` -/
def blocks (mem : Bytes) (dtb : Nat) : View where
  mem := mem
  readable a :=
    let h := FdtHeader.load mem dtb
    let total := fdt32ToCpu h.totalsize
    inBlock dtb total (fdt32ToCpu h.offDtStruct) (fdt32ToCpu h.sizeDtStruct) a ||
      inBlock dtb total (fdt32ToCpu h.offDtStrings) (fdt32ToCpu h.sizeDtStrings) a

/-- The whole memory, without a check -/
def unchecked (mem : Bytes) : View := ⟨mem, fun _ => true⟩

/-- Where the scan starts -/
def scanStart (mem : Bytes) (dtb : Nat) : Scan := ⟨dtb + cell mem (dtb + 8), false⟩

def stringsBase (mem : Bytes) (dtb : Nat) : Nat := dtb + cell mem (dtb + 12)

/-- With some fuel on `extract_memory_info` returns, and it has read nothing but the blocks. -/
def StaysInside (mem : Bytes) (dtb : Nat) : Prop := ∃ enough, ∃ r, ∀ fuel, enough ≤ fuel →
  extractMemoryInfo fuel (blocks mem dtb) dtb (FdtHeader.load mem dtb) = .ok r ∧
  extractMemoryInfo fuel (unchecked mem) dtb (FdtHeader.load mem dtb) = .ok r

variable {v w : View} {strings a n dtb : Nat} {s : Scan} {o : Turn} {str : List UInt8} {r : Option (Nat × Nat)} {mem : Bytes}

/-! ## A larger view -/

/-- `w` is the memory of `v`, of which at least as much may be read. -/
structure View.Le (v w : View) : Prop where
  mem_eq : w.mem = v.mem
  readable : ∀ a, v.readable a = true → w.readable a = true

theorem le_unchecked : (blocks mem dtb).Le (unchecked mem) where
  mem_eq := rfl
  readable _ _ := rfl

theorem View.Le.covers (h : v.Le w) (hc : v.Covers a n) : w.Covers a n := fun i hi => h.readable (a + i) (hc i hi)

theorem View.Le.hasString (h : v.Le w) (hs : v.HasString a n) : w.HasString a n where
  covers := h.covers hs.covers
  ne_zero := h.mem_eq ▸ hs.ne_zero
  nul := h.mem_eq ▸ hs.nul

theorem View.Le.comparable (h : v.Le w) (hs : v.Comparable a str) : w.Comparable a str := by
  induction str generalizing a with
  | nil => exact h.readable a hs
  | cons c str ih =>
    refine ⟨h.readable a hs.1, fun heq => ih (hs.2 ?_)⟩
    rwa [← h.mem_eq]

theorem Goes.mono (hle : v.Le w) (h : Goes v strings s o) : Goes w strings s o := by
  have hm := hle.mem_eq
  cases h with
  | beginNode hc ht hs =>
    rw [← hm]
    exact .beginNode (hle.covers hc) (hm ▸ ht) (hle.hasString hs)
  | endNode hc ht => exact .endNode (hle.covers hc) (hm ▸ ht)
  | reg hc ht hcmp hname hlen hdata =>
    rw [← hm] at *
    exact .reg (hle.covers hc) ht (hle.comparable hcmp) hname hlen (hle.covers hdata)
  | prop hc ht hcmp hno =>
    rw [← hm] at *
    exact .prop (hle.covers hc) ht (fun hin => hle.comparable (hcmp hin)) hno
  | nop hc ht => exact .nop (hle.covers hc) (hm ▸ ht)
  | other hc ht => exact .other (hle.covers hc) (hm ▸ ht)

theorem Stops.mono (hle : v.Le w) (h : Stops v strings s r) : Stops w strings s r := by
  induction h with
  | ret h => exact .ret (h.mono hle)
  | next h _ ih => exact .next (h.mono hle) ih

/-! ## The scan of a blob -/

theorem extractMemoryInfo_eq (fuel : Nat) (v : View) :
    extractMemoryInfo fuel v dtb (FdtHeader.load mem dtb) = scan v (stringsBase mem dtb) fuel (scanStart mem dtb) := by
  simp only [extractMemoryInfo, FdtHeader.load, fdt32_getLe, stringsBase, scanStart]

theorem StaysInside.stops (h : StaysInside mem dtb) : ∃ r, Stops (blocks mem dtb) (stringsBase mem dtb) (scanStart mem dtb) r := by
  obtain ⟨enough, r, hrun⟩ := h
  have hlast := (hrun enough (Nat.le_refl _)).1
  rw [extractMemoryInfo_eq] at hlast
  exact ⟨r, stops_of_scan hlast⟩

/-- **`extract_memory_info` stays inside the blocks**, and terminates, exactly if the tokens from the start of the structure block
on lead, inside the blocks, to one with which the scan returns. -/
theorem extract_stays_inside_iff (mem : Bytes) (dtb : Nat) :
    StaysInside mem dtb ↔ ∃ r, Stops (blocks mem dtb) (stringsBase mem dtb) (scanStart mem dtb) r := by
  refine ⟨StaysInside.stops, fun ⟨r, hstops⟩ => ?_⟩
  obtain ⟨enough, hin⟩ := hstops.scan
  obtain ⟨enough', hall⟩ := (hstops.mono le_unchecked).scan
  refine ⟨max enough enough', r, fun fuel hfuel => ?_⟩
  rw [extractMemoryInfo_eq, extractMemoryInfo_eq]
  exact ⟨hin fuel (by omega), hall fuel (by omega)⟩

/-- A blob of 44 bytes: the header, and a structure block cut off behind its only token, an `FDT_NOP`. -/
def truncatedBlob : Bytes := fun a =>
  [0xd0, 0x0d, 0xfe, 0xed, 0, 0, 0, 44, 0, 0, 0, 40, 0, 0, 0, 44, 0, 0, 0, 0, 0, 0, 0, 17, 0, 0, 0, 16, 0, 0, 0, 0, 0, 0, 0, 0,
    0, 0, 0, 4, 0, 0, 0, 4].getD (a - 0xFFFFFFFFC2200000) 0

theorem truncated_reads_outside : fdt32ToCpu (FdtHeader.load truncatedBlob 0xFFFFFFFFC2200000).magic = fdtMagic ∧
    ¬ StaysInside truncatedBlob 0xFFFFFFFFC2200000 := by
  refine ⟨by decide +kernel, fun h => ?_⟩
  obtain ⟨r, hstops⟩ := h.stops
  have hword : cell (blocks truncatedBlob 0xFFFFFFFFC2200000).mem (0xFFFFFFFFC2200000 + 40) = fdtNop := by decide +kernel
  have hstart : scanStart truncatedBlob 0xFFFFFFFFC2200000 = ⟨0xFFFFFFFFC2200000 + 40, false⟩ := by
    rw [scanStart, show cell truncatedBlob (0xFFFFFFFFC2200000 + 8) = 40 by decide +kernel]
  have hbehind : (blocks truncatedBlob 0xFFFFFFFFC2200000).readable (0xFFFFFFFFC2200000 + 44) = false := by decide +kernel
  rw [hstart] at hstops
  have hread := (hstops.of_nop hword).covers 0 (by decide)
  have hplace : (0xFFFFFFFFC2200000 + 40) + 4 + 0 = 0xFFFFFFFFC2200000 + 44 := rfl
  dsimp only at hread
  rw [hplace, hbehind] at hread
  exact Bool.false_ne_true hread

end Ucore.Dtb
