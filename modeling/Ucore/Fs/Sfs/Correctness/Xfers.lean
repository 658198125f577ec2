import Ucore.Fs.Sfs.Correctness.Atomic
import Ucore.Fs.Sfs.Correctness.IoLoop

/-!
# `Fs.Sfs.Correctness.Xfers` — the device transfers of a round

As long as the rounds of `sfs_io_nolock` stay below `din->blocks` their transfers can be counted before
the call: one for the entry block, one for the data, and one more to read a partial block that is written
(`roundXfers`). `StopsEarly` uses the count to say that the device fails before the file has to grow.
-/

namespace Ucore

open SfsFs

variable {c c' : SfsCtx} {s : SfsFs} {write : Bool} {start endpos a b i : Nat} {buf buf' : Bytes}

/-- The transfers of a round, behind the one of the entry block. -/
def pieceXfers (write : Bool) (start endpos a : Nat) : Nat :=
  if write = true ∧ ¬ ((start + a) % 4096 = 0 ∧ start + a + 4096 ≤ endpos) then 2 else 1

/-- The transfers it takes to find the block of an index of the file. -/
def loadXfers (i : Nat) : Nat := if i < 12 then 0 else 1

/-- The transfers of the round that starts `a` bytes into `[start, endpos)`, if its block is there. -/
def roundXfers (write : Bool) (start endpos a : Nat) : Nat :=
  loadXfers ((start + a) / 4096) + pieceXfers write start endpos a

/-- The transfers of all rounds before that one. -/
def xfersTo (write : Bool) (start a : Nat) : Nat :=
  (start + a) / 4096 - start / 4096 + ((start + a) / 4096 - 12 - (start / 4096 - 12)) +
    if write = true ∧ start % 4096 ≠ 0 ∧ 0 < a then 1 else 0

/-- The device fails in a round whose block is there, before the bytes done so far, counted twice, pass the
    end of the file. -/
def SfsCtx.StopsEarly (c : SfsCtx) (write : Bool) (start endpos : Nat) : Prop :=
  ∃ a j, (a = 0 ∨ (start + a) % 4096 = 0) ∧ start + a < endpos ∧ (start + a) / 4096 < c.sin.din.blocks ∧
    start + a + a ≤ 4096 * c.sin.din.blocks ∧ j < roundXfers write start endpos a ∧
    c.fs.fault (xfersTo write start a + j) ≠ 0

/-- The next `n` transfers go through. -/
def SfsFs.Quiet (s : SfsFs) (n : Nat) : Prop := ∀ j, j < n → s.fault j = 0

theorem quiet_one (h : ¬ s.XferFails 0 b) : s.Quiet 1 := by
  intro j hj
  obtain rfl : j = 0 := by omega
  exact not_not.mp fun hf => h (Or.inr hf)

theorem SfsFs.Quiet.later {s' : SfsFs} {m n : Nat} (h : s.Quiet m) (hl : Later m s s') (h' : s'.Quiet n) :
    s.Quiet (m + n) := by
  intro j hj
  by_cases hjm : j < m
  · exact h j hjm
  · obtain ⟨k, rfl⟩ : ∃ k, j = m + k := ⟨j - m, by omega⟩
    rw [← hl.fault]
    exact h' k (by omega)

/-! ## One round -/

theorem sfsRwblock_quiet : (sfsRwblock buf a b write 1 s).Post (fun _ s' => s.Quiet 1 ∧ Later 1 s s')
    (fun _ _ => True) := by
  unfold sfsRwblock
  apply (sfsRwblockNolock_post write true).bind (fun _ _ _ => trivial)
  rintro x s' ⟨hx, -, hl, -⟩
  exact ⟨quiet_one hx, hl⟩

theorem sfsRbuf_quiet {d len off : Nat} : (sfsRbuf buf d len b off s).Post
    (fun _ s' => s.Quiet 1 ∧ Later 1 s s') (fun _ _ => True) := by
  unfold sfsRbuf
  apply Outcome.Post.check_bind
  intro _
  rw [Proc.get_bind]
  apply (sfsRwblockNolock_post false true).bind (fun _ _ _ => trivial)
  rintro x s' ⟨hx, -, hl, -⟩
  rw [setSfsBuffer, Proc.modify_bind]
  exact ⟨quiet_one hx, hl.dBlocks, hl.ioRet, hl.ticks⟩

theorem pieceOp_quiet : (pieceOp write start endpos a buf b s).Post
    (fun _ s' => s.Quiet (pieceXfers write start endpos a) ∧ Later (pieceXfers write start endpos a) s s')
    (fun _ _ => True) := by
  unfold pieceOp pieceXfers
  by_cases hfull : (start + a) % 4096 = 0 ∧ start + a + 4096 ≤ endpos
  · rw [if_pos hfull, if_neg (fun hc => hc.2 hfull)]
    unfold sfsBlockOp
    split
    · exact sfsRwblock_quiet
    · exact sfsRwblock_quiet
  · rw [if_neg hfull]
    unfold sfsBufOp
    cases write with
    | true =>
      rw [if_pos rfl, if_pos ⟨rfl, hfull⟩]
      apply Outcome.Post.bind sfsWbuf_post (fun _ _ _ => trivial)
      rintro _ s' ⟨h0, h1, -, hl⟩
      refine ⟨fun j hj => ?_, hl⟩
      rcases Nat.le_one_iff_eq_zero_or_eq_one.mp (Nat.le_of_lt_succ hj) with rfl | rfl
      · exact not_not.mp fun hf => h0 (Or.inr hf)
      · exact not_not.mp fun hf => h1 (Or.inr hf)
    | false =>
      rw [if_neg Bool.false_ne_true, if_neg (fun hc => Bool.false_ne_true hc.1)]
      exact sfsRbuf_quiet

/-- The walk through the entry block. -/
theorem bmapGetIndirect_quiet {j : Nat} : (bmapGetIndirect j false c).Post
    (fun ino c' => ino ≠ 0 → c.fs.Quiet 1 ∧ Later 1 c.fs c'.fs ∧ c'.sin = c.sin) (fun _ _ => True) := by
  unfold bmapGetIndirect
  rw [Proc.get_bind]
  apply Outcome.Post.seq (Q := fun r c' => r.1 = c.sin.din.indirect ∧
    (r.2 ≠ 0 → c.fs.Quiet 1 ∧ Later 1 c.fs c'.fs ∧ c'.sin = c.sin))
  · apply Outcome.Post.zoom
    unfold sfsBmapGetSubNolock
    apply Outcome.Post.check_bind
    intro _
    by_cases hz : c.sin.din.indirect ≠ 0
    · simp only [if_pos hz]
      apply sfsRbufEntry_post.bind (fun _ _ _ => trivial)
      rintro ino s' ⟨hx, -, hl, -⟩
      rw [if_pos (Or.inr trivial)]
      exact ⟨rfl, fun _ => ⟨quiet_one hx, hl, trivial⟩⟩
    · simp only [if_neg hz, if_true]
      exact ⟨rfl, fun h0 => absurd rfl h0⟩
  · rintro ⟨ent, ino⟩ c' ⟨he, h⟩
    have he' : ¬ ent ≠ c.sin.din.indirect := not_not_intro he
    simp only [if_neg he']
    exact h

theorem sfsBmapGetNolock_quiet : (sfsBmapGetNolock i false c).Post
    (fun ino c' => ino ≠ 0 → c.fs.Quiet (loadXfers i) ∧ Later (loadXfers i) c.fs c'.fs ∧ c'.sin = c.sin)
    (fun _ _ => True) := by
  have hend : ∀ (ino : Nat) (c₁ : SfsCtx),
      (ino ≠ 0 → c.fs.Quiet (loadXfers i) ∧ Later (loadXfers i) c.fs c₁.fs ∧ c₁.sin = c.sin) →
      ((if ino = 0 then pure ino else do
        onFs (assertInuse .bmapGetInuse ino)
        pure ino : SinM Nat) c₁).Post
      (fun ino c' => ino ≠ 0 → c.fs.Quiet (loadXfers i) ∧ Later (loadXfers i) c.fs c'.fs ∧ c'.sin = c.sin)
      (fun _ _ => True) := by
    intro ino c₁ h
    split
    · exact h
    · apply Outcome.Post.seq (Q := fun _ c' => c' = c₁)
      · apply Outcome.Post.zoom
        refine (assertInuse_post _).imp (fun _ s' h => ?_) fun _ _ _ => trivial
        rw [h.1]
      · rintro _ _ rfl
        exact h
  unfold sfsBmapGetNolock
  by_cases hi : i < 12
  · have hx : loadXfers i = 0 := if_pos hi
    simp only [hi, dite_true]
    refine Outcome.Post.seq ?_ hend
    unfold bmapGetDirect
    rw [Proc.get_bind, if_neg (fun hc => Bool.false_ne_true hc.2), hx]
    exact fun _ => ⟨fun j hj => absurd hj (Nat.not_lt_zero j), ⟨rfl, rfl, rfl⟩, rfl⟩
  · have hx : loadXfers i = 1 := if_neg hi
    simp only [hi, dite_false]
    split
    · refine Outcome.Post.seq ?_ hend
      rw [hx]
      exact bmapGetIndirect_quiet
    · trivial

/-- Finding the block of an index that the file has. -/
theorem sfsBmapLoadNolock_quiet (hi : i < c.sin.din.blocks) : (sfsBmapLoadNolock i c).Post
    (fun _ c' => c.fs.Quiet (loadXfers i) ∧ Later (loadXfers i) c.fs c'.fs ∧ c'.sin = c.sin)
    (fun _ _ => True) := by
  have hcreate : decide (i = c.sin.din.blocks) = false := decide_eq_false (Nat.ne_of_lt hi)
  unfold sfsBmapLoadNolock
  rw [Proc.get_bind]
  apply Outcome.Post.check_bind
  intro _
  simp only [hcreate]
  apply Outcome.Post.seq sfsBmapGetNolock_quiet
  intro ino c₁ h
  apply Outcome.Post.seq (Q := fun _ c' => c' = c₁ ∧ ino ≠ 0)
  · apply Outcome.Post.zoom
    refine (assertInuse_post _).imp (fun _ s' h => ?_) fun _ _ _ => trivial
    obtain ⟨rfl, h0, -⟩ := h
    exact ⟨rfl, h0⟩
  · rintro _ _ ⟨rfl, h0⟩
    exact h h0

theorem ioPiece_quiet (hi : (start + a) / 4096 < c.sin.din.blocks) : (ioPiece write start endpos a buf c).Post
    (fun _ c' => c.fs.Quiet (roundXfers write start endpos a) ∧
      Later (roundXfers write start endpos a) c.fs c'.fs ∧ c'.sin = c.sin) (fun _ _ => True) := by
  unfold ioPiece roundXfers
  apply (sfsBmapLoadNolock_quiet hi).bind (fun _ _ _ => trivial)
  rintro b c₁ ⟨hq, hl, hs⟩
  apply Outcome.Post.zoom
  refine pieceOp_quiet.imp (fun _ s' h => ?_) fun _ _ _ => trivial
  exact ⟨hq.later hl h.1, hl.trans h.2, hs⟩

/-! ## The rounds before the file has to grow -/

theorem xfersTo_next (hal : a = 0 ∨ (start + a) % 4096 = 0)
    (hlt : start + (a + pieceSize start endpos a) < endpos) :
    xfersTo write start (a + pieceSize start endpos a) =
      xfersTo write start a + roundXfers write start endpos a := by
  have hsize : pieceSize start endpos a = 4096 - (start + a) % 4096 := by
    unfold pieceSize at hlt ⊢
    omega
  have hdiv : (start + (a + pieceSize start endpos a)) / 4096 = (start + a) / 4096 + 1 := by omega
  have hpos : 0 < a + pieceSize start endpos a := by omega
  have hpart : ¬ ((start + a) % 4096 = 0 ∧ start + a + 4096 ≤ endpos) ↔ a = 0 ∧ start % 4096 ≠ 0 := by omega
  have hle : start / 4096 ≤ (start + a) / 4096 := Nat.div_le_div_right (Nat.le_add_right _ _)
  have hload : (start + a) / 4096 + 1 - 12 - (start / 4096 - 12) =
      (start + a) / 4096 - 12 - (start / 4096 - 12) + loadXfers ((start + a) / 4096) := by
    unfold loadXfers
    split <;> omega
  unfold xfersTo roundXfers pieceXfers
  rw [hdiv, hload]
  simp only [hpart, hpos, and_true]
  by_cases hw : write = true ∧ start % 4096 ≠ 0
  · by_cases ha : a = 0
    · rw [if_pos hw, if_neg (by omega), if_pos ⟨hw.1, ha, hw.2⟩]
      omega
    · rw [if_pos hw, if_pos ⟨hw.1, hw.2, by omega⟩, if_neg (fun hc => ha hc.2.1)]
      omega
  · rw [if_neg hw, if_neg (fun hc => hw ⟨hc.1, hc.2.1⟩), if_neg (fun hc => hw ⟨hc.1, hc.2.2⟩)]
    omega

/-- Rounds that went through below the end of the file have used the transfers counted for them. -/
theorem IoDone.quiet (hd : IoDone write start endpos buf c a buf' c') (hlt : start + a < endpos)
    (hi : (start + a) / 4096 ≤ c.sin.din.blocks) :
    c.fs.Quiet (xfersTo write start a) ∧ Later (xfersTo write start a) c.fs c'.fs ∧ c'.sin = c.sin := by
  induction hd with
  | start =>
    have h0 : xfersTo write start 0 = 0 := by
      unfold xfersTo
      rw [if_neg (fun hc => Nat.lt_irrefl 0 hc.2.2)]
      omega
    rw [h0]
    exact ⟨fun j hj => absurd hj (Nat.not_lt_zero j), ⟨rfl, rfl, rfl⟩, rfl⟩
  | @next a _ _ c₁ _ hd hl hp ih =>
    have hal := hd.aligned hl
    have hlt' : (start + a) / 4096 < c.sin.din.blocks := by
      unfold pieceSize at hi hlt
      omega
    obtain ⟨hq, hlat, hs⟩ := ih hl (by omega)
    obtain ⟨hq', hlat', hs'⟩ := (ioPiece_quiet (hs ▸ hlt')).of_ok hp
    rw [xfersTo_next hal hlt]
    exact ⟨hq.later hlat hq', hlat.trans hlat', hs'.trans hs⟩

/-- A device that fails early stops the transfer there. -/
theorem SfsCtx.StopsEarly.le (h : c.StopsEarly write start endpos)
    (hd : IoDone write start endpos buf c a buf' c') :
    start + a + a ≤ 4096 * c.sin.din.blocks ∧ (start + a) / 4096 < c.sin.din.blocks ∧ start + a < endpos := by
  obtain ⟨a₀, j, hal₀, hlt₀, hi₀, hcount, hj, hf⟩ := h
  have hle : a ≤ a₀ := by
    induction hd with
    | start => exact Nat.zero_le _
    | @next a _ _ c₁ _ hd hl hp ih =>
      rcases Nat.lt_or_eq_of_le ih with hlt | rfl
      · unfold pieceSize
        omega
      · -- this is the round with the failing transfer
        obtain ⟨-, hlat, hs⟩ := hd.quiet hl (Nat.le_of_lt hi₀)
        obtain ⟨hq, -⟩ := (ioPiece_quiet (hs ▸ hi₀)).of_ok hp
        refine absurd ?_ hf
        rw [← hlat.fault]
        exact hq j hj
  refine ⟨by omega, ?_, by omega⟩
  exact Nat.lt_of_le_of_lt (Nat.div_le_div_right (by omega)) hi₀

end Ucore
