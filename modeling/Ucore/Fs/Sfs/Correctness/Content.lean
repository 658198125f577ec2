import Ucore.Fs.Sfs.Correctness.Codes
import Ucore.Fs.Sfs.Correctness.GrowZero
import Ucore.Fs.Sfs.Correctness.SizeBlocks

/-!
# `Fs.Sfs.Correctness.Content` — the bytes of a file, whatever a transfer ends with

`SfsCtx.content` is the file as those who read it know it: the bytes that its blocks hold, up to its end. A transfer that fails
half-way has put in, or handed over, the bytes that it counts and no others. Its size is another matter: what the label `out`
does to it, it does after a failure as well, and with no bytes transferred the file reaches up to the place where they
would have gone.
-/

namespace Ucore

open SfsFs SfsCtx

variable {c c' : SfsCtx} {R : Set Nat} {a p start endpos len : Nat} {offset : Int} {buf : Bytes} {write : Bool} {r : IoResult}

/-- Byte `p` of a file, if it has so many. -/
def SfsCtx.content (c : SfsCtx) (p : Nat) : Option UInt8 := if p < c.sin.din.size then some (c.stored p) else none

theorem content_eq_some (hp : p < c.sin.din.size) : c.content p = some (c.stored p) := if_pos hp

theorem content_eq_none (hp : c.sin.din.size ≤ p) : c.content p = none := if_neg (Nat.not_lt.mpr hp)

/-- Loading an index may fail when a block has been taken for it; what the file has is left alone. -/
theorem LoadFails.stored {s' : SfsFs} {i : Nat} (h : FileInv c R) (hf : LoadFails c i s') : (c.withFs s').stored p = c.stored p := by
  apply stored_withFs h
  rintro _ ⟨hne, t, rfl⟩
  refine hf.failed.grows.keep _ (fun hfree => ?_) (Set.notMem_empty _)
  have hbit := (h.use t hne).bit
  rw [hfree.bit] at hbit
  cases hbit

/-- A round that fails changes no byte. -/
theorem ioPiece_err_stored {e : Int} (h : FileInv c R) (hlt : start + a < endpos) (hib : (start + a) / 4096 ≤ c.sin.din.blocks)
    (hp : ioPiece write start endpos a buf c = .err e c') : c'.stored p = c.stored p := by
  by_cases hi : (start + a) / 4096 < 1036
  · rcases ioPiece_cases write buf h hlt rfl hib hi with ⟨b, c₁, k, x, -, hrun⟩ | ⟨b, c₁, k, x, e', hl, -, -, hrun⟩ |
      ⟨e', s', -, hf, -, hrun⟩ <;> rw [hp] at hrun <;> cases hrun
    · have hscratch : (c₁.scratch k x).stored p = c₁.stored p := rfl
      exact hscratch.trans (hl.stored h hib)
    · exact hf.stored h
  · unfold ioPiece at hp
    rw [Proc.bind_panic (sfsBmapLoadNolock_outOfRange hib (by omega))] at hp
    cases hp

/-- What a transfer leaves, with the bytes `r.alen` done. -/
structure Transferred (write : Bool) (buf : Bytes) (offset : Int) (len : Nat) (c : SfsCtx) (r : IoResult) (c' : SfsCtx) : Prop where
  alen_le : r.alen ≤ len
  range : r.alen ≠ 0 → 0 ≤ offset ∧ offset.toNat + r.alen ≤ ioLimit c offset.toNat len write
  size_le : c.sin.din.size ≤ c'.sin.din.size
  reach : r.alen ≠ 0 → offset.toNat + r.alen ≤ c'.sin.din.size
  failed : r.alen = 0 → IoTransfers c offset len write → r.ret ≠ 0 ∧ c'.sin.din.size = max c.sin.din.size offset.toNat
  idle : ¬ IoTransfers c offset len write → c' = c
  stored : ∀ p, c'.stored p = if write = true ∧ offset.toNat ≤ p ∧ p < offset.toNat + r.alen then buf (p - offset.toNat)
    else c.stored p
  data : write = false → ∀ k, k < r.alen → r.buf k = c.stored (offset.toNat + k)

/-- The rounds that went through have put in their bytes. -/
theorem IoDone.stored {b : Bytes} (h : FileInv c R) (hd : IoDone write start endpos buf c a b c') (p : Nat) :
    c'.stored p = if write = true ∧ start ≤ p ∧ p < start + a then buf (p - start) else c.stored p := by
  cases write with
  | false => exact ((hd.stored_read h).1 p).trans (if_neg fun hc => Bool.false_ne_true hc.1).symm
  | true =>
    rw [(hd.stored_write h).2 p]
    exact if_congr (and_iff_right rfl).symm rfl rfl

/-- **One transfer**, to whatever end. -/
theorem sfsIoNolock_transferred (h : FileInv c R) (htype : c.sin.din.type ≠ sfsTypeDir) (hlen : len < 2 ^ 64)
    (hrun : sfsIoNolock buf offset len write c = .ok r c') : Transferred write buf offset len c r c' := by
  by_cases ht : IoTransfers c offset len write
  · obtain ⟨h0, hmax, hfit, hlt⟩ := id ht
    have hlim : ioLimit c offset.toNat len write ≤ offset.toNat + len := by
      unfold ioLimit
      split <;> omega
    rcases sfsIoNolock_cases buf htype ht rfl rfl with ⟨b, c₁, hd, hrun'⟩ | ⟨a, b, c₁, c₂, e, hd, hl, hp, he, hrun'⟩ |
      ⟨a, b, c₁, p, -, -, -, hrun'⟩ <;> rw [hrun] at hrun' <;> cases hrun'
    · have hsize := hd.kept.size
      constructor
      · show ioLimit c offset.toNat len write - offset.toNat ≤ len
        omega
      · intro _
        show 0 ≤ offset ∧ offset.toNat + (ioLimit c offset.toNat len write - offset.toNat) ≤ _
        omega
      · rw [size_reach, hsize]
        omega
      · intro _
        show offset.toNat + (ioLimit c offset.toNat len write - offset.toNat) ≤ _
        rw [size_reach]
        omega
      · intro hzero _
        have hzero' : ioLimit c offset.toNat len write - offset.toNat = 0 := hzero
        omega
      · exact fun hno => absurd ht hno
      · exact fun p => (stored_reach _).trans (hd.stored h p)
      · rintro rfl
        exact (hd.stored_read h).2
    · have hlt' : offset.toNat + a ≤ ioLimit c offset.toNat len write := hd.le hlt
      have hg := hd.grown h
      have hidx := hd.index_le h hl (hd.start_le hp)
      obtain ⟨n, -, hk⟩ := hd.kept_err hl hp
      constructor
      · show a ≤ len
        omega
      · exact fun _ => ⟨h0, hlt'⟩
      · rw [size_reach, hk.size]
        omega
      · intro _
        show offset.toNat + a ≤ _
        rw [size_reach]
        omega
      · intro hzero _
        have hzero' : a = 0 := hzero
        subst hzero'
        rw [size_reach, hk.size]
        exact ⟨he, rfl⟩
      · exact fun hno => absurd ht hno
      · exact fun p => (stored_reach _).trans ((ioPiece_err_stored hg.inv hl hidx hp).trans (hd.stored h p))
      · rintro rfl
        exact (hd.stored_read h).2
  · obtain ⟨ret, hrun', -⟩ := sfsIoNolock_idle buf htype hlen ht
    rw [hrun] at hrun'
    cases hrun'
    refine ⟨Nat.zero_le len, fun hne => absurd rfl hne, Nat.le_refl _, fun hne => absurd rfl hne, fun _ hc => absurd hc ht,
      fun _ => rfl, fun p => ?_, fun _ k hk => absurd hk (Nat.not_lt_zero k)⟩
    rw [if_neg fun hc => absurd (Nat.lt_of_le_of_lt hc.2.1 hc.2.2) (Nat.lt_irrefl _)]

end Ucore
