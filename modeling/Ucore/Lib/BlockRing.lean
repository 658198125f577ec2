import Mathlib.Algebra.BigOperators.Group.Finset.Basic
import Mathlib.Algebra.GroupWithZero.Nat
import Mathlib.Data.Finset.Card
import Mathlib.Logic.Function.Iterate
import Mathlib.Order.Interval.Finset.Nat
import Mathlib.Tactic.Push

/-!
# `Lib.BlockRing` — blocks on a ring in the order of their addresses

`F` are the addresses of some blocks, `len` their lengths, and `next` leads from each block to the one with the next higher
address, and from the highest to the lowest. `Blocks F len next` says this, and that no two blocks overlap. A block can be
put in its place, taken out, joined with the one behind it, and cut from its lower end; each of these has a lemma here
that also says which blocks touch afterwards. `gap` is the number of steps that a walk still has to go.
-/

namespace Ucore

variable {F : Finset Nat} {len len' next next' : Nat → Nat} {b c x y z n : Nat}

/-- `y` comes behind `x`; behind the last one comes the first. -/
def CycNext (F : Finset Nat) (x y : Nat) : Prop :=
  y ∈ F ∧ ((x < y ∧ ∀ z ∈ F, z ≤ x ∨ y ≤ z) ∨ (y ≤ x ∧ ∀ z ∈ F, y ≤ z ∧ z ≤ x))

/-- `b` belongs between `c` and the block behind it. -/
def Stop (next : Nat → Nat) (b c : Nat) : Prop :=
  (c < b ∧ b < next c) ∨ (next c ≤ c ∧ (c < b ∨ b < next c))

instance (next : Nat → Nat) (b c : Nat) : Decidable (Stop next b c) := inferInstanceAs (Decidable (_ ∨ _))

structure Blocks (F : Finset Nat) (len next : Nat → Nat) : Prop where
  ring : ∀ x ∈ F, CycNext F x (next x)
  pos : ∀ x ∈ F, 0 < len x
  packed : ∀ x ∈ F, ∀ y ∈ F, x < y → x + len x ≤ y

/-- One block ends where the other one begins. -/
def Touch (F : Finset Nat) (len : Nat → Nat) (x y : Nat) : Prop := x ∈ F ∧ y ∈ F ∧ x + len x = y

def NoTouch (F : Finset Nat) (len : Nat → Nat) : Prop := ∀ x y, ¬ Touch F len x y

theorem NoTouch.congr (h : NoTouch F len) (hlen : ∀ x ∈ F, len' x = len x) : NoTouch F len' := by
  rintro x y ⟨hx, hy, hxy⟩
  rw [hlen x hx] at hxy
  exact h x y ⟨hx, hy, hxy⟩

namespace Blocks

theorem next_mem (h : Blocks F len next) (hx : x ∈ F) : next x ∈ F := (h.ring x hx).1

theorem congr (h : Blocks F len next) (hlen : ∀ x ∈ F, len' x = len x) (hnext : ∀ x ∈ F, next' x = next x) :
    Blocks F len' next' where
  ring := by
    intro x hx
    rw [hnext x hx]
    exact h.ring x hx
  pos := by
    intro x hx
    rw [hlen x hx]
    exact h.pos x hx
  packed := by
    intro x hx y hy hlt
    rw [hlen x hx]
    exact h.packed x hx y hy hlt

/-! ## Walks -/

/-- How many blocks there are from `c` on to the place of `b`. -/
def gap (F : Finset Nat) (b c : Nat) : Nat :=
  if c < b then (F.filter fun z => c < z ∧ z < b).card else (F.filter fun z => c < z ∨ z < b).card

theorem gap_le (F : Finset Nat) (b c : Nat) : gap F b c ≤ F.card := by
  rw [gap]
  split
  · exact Finset.card_filter_le _ _
  · exact Finset.card_filter_le _ _

/-- **Each step of a walk** to the place of `b` comes closer to it. -/
theorem gap_lt (h : Blocks F len next) (hc : c ∈ F) (hne : next c ≠ b) (hgo : ¬ Stop next b c) :
    gap F b (next c) < gap F b c := by
  have hmem := h.next_mem hc
  have hgo' : ¬ (c < b ∧ b < next c) ∧ ¬ (next c ≤ c ∧ (c < b ∨ b < next c)) := not_or.mp hgo
  obtain ⟨hin, hwrap⟩ := hgo'
  -- the block behind `c` is no longer counted
  by_cases hlt : c < b
  · have hstep : c < next c ∧ next c < b := by
      constructor
      · by_contra hle
        exact hwrap ⟨by omega, .inl hlt⟩
      · by_contra hle
        exact hin ⟨hlt, by omega⟩
    rw [gap, gap, if_pos hlt, if_pos hstep.2]
    refine Finset.card_lt_card (Finset.ssubset_iff_of_subset ?_ |>.mpr ⟨next c, ?_, ?_⟩)
    · intro z hz
      simp only [Finset.mem_filter] at hz ⊢
      exact ⟨hz.1, by omega, hz.2.2⟩
    · simp only [Finset.mem_filter]
      exact ⟨hmem, hstep.1, hstep.2⟩
    · simp
  · rw [gap, gap, if_neg hlt]
    by_cases hup : c < next c
    · rw [if_neg (by omega)]
      refine Finset.card_lt_card (Finset.ssubset_iff_of_subset ?_ |>.mpr ⟨next c, ?_, ?_⟩)
      · intro z hz
        simp only [Finset.mem_filter] at hz ⊢
        exact ⟨hz.1, by omega⟩
      · simp only [Finset.mem_filter]
        exact ⟨hmem, .inl hup⟩
      · simp only [Finset.mem_filter]
        omega
    · have hlow : next c < b := by
        by_contra hle
        exact hwrap ⟨by omega, .inr (by omega)⟩
      rw [if_pos hlow]
      refine Finset.card_lt_card (Finset.ssubset_iff_of_subset ?_ |>.mpr ⟨next c, ?_, ?_⟩)
      · intro z hz
        simp only [Finset.mem_filter] at hz ⊢
        exact ⟨hz.1, .inr hz.2.2⟩
      · simp only [Finset.mem_filter]
        exact ⟨hmem, .inr hlow⟩
      · simp

/-- A walk to a block of the ring stops nowhere before. -/
theorem not_stop (h : Blocks F len next) (hb : b ∈ F) (hc : c ∈ F) : ¬ Stop next b c := by
  obtain ⟨-, ⟨hlt, hout⟩ | ⟨hle, hin⟩⟩ := h.ring c hc
  · have hb' := hout b hb
    rintro (⟨h1, h2⟩ | ⟨h1, -⟩)
    · omega
    · omega
  · have hb' := hin b hb
    rintro (⟨h1, h2⟩ | ⟨-, h1 | h1⟩)
    · omega
    · omega
    · omega

/-- The ring is one: each block is reached from any other one. -/
theorem reach (h : Blocks F len next) (hx : x ∈ F) (hc : c ∈ F) : ∃ k, next^[k] c = x := by
  induction hg : gap F x c using Nat.strong_induction_on generalizing c with
  | _ g ih =>
    by_cases hcx : c = x
    · exact ⟨0, hcx⟩
    · by_cases hnx : next c = x
      · exact ⟨1, hnx⟩
      · have hlt := h.gap_lt hc hnx (h.not_stop hx hc)
        obtain ⟨k, hk⟩ := ih _ (hg ▸ hlt) (h.next_mem hc) rfl
        exact ⟨k + 1, hk⟩

theorem iterate_mem (h : Blocks F len next) (hc : c ∈ F) (k : Nat) : next^[k] c ∈ F := by
  induction k with
  | zero => exact hc
  | succ k ih =>
    rw [Function.iterate_succ_apply']
    exact h.next_mem ih

/-! ## Putting a block in its place -/

/-- The new block is next to the one where the walk stops. -/
theorem ring_before (h : Blocks F len next) (hc : c ∈ F) (hstop : Stop next b c) : CycNext (insert b F) c b := by
  refine ⟨Finset.mem_insert_self _ _, ?_⟩
  obtain ⟨-, ⟨hlt, hout⟩ | ⟨hle, hin⟩⟩ := h.ring c hc
  · obtain ⟨h1, h2⟩ | ⟨h1, -⟩ := hstop
    · refine .inl ⟨h1, fun z hz => ?_⟩
      rcases Finset.mem_insert.mp hz with rfl | hz
      · omega
      · have hz' := hout z hz
        omega
    · omega
  · -- behind the last block, or before the first one
    rcases hstop with ⟨h1, h2⟩ | ⟨-, h1 | h1⟩
    · omega
    · refine .inl ⟨h1, fun z hz => ?_⟩
      rcases Finset.mem_insert.mp hz with rfl | hz
      · omega
      · have hz' := hin z hz
        omega
    · refine .inr ⟨by omega, fun z hz => ?_⟩
      rcases Finset.mem_insert.mp hz with rfl | hz
      · omega
      · have hz' := hin z hz
        omega

/-- What was next to that one is next to the new block. -/
theorem ring_behind (h : Blocks F len next) (hc : c ∈ F) (hstop : Stop next b c) : CycNext (insert b F) b (next c) := by
  refine ⟨Finset.mem_insert_of_mem (h.next_mem hc), ?_⟩
  obtain ⟨-, ⟨hlt, hout⟩ | ⟨hle, hin⟩⟩ := h.ring c hc
  · obtain ⟨h1, h2⟩ | ⟨h1, -⟩ := hstop
    · refine .inl ⟨h2, fun z hz => ?_⟩
      rcases Finset.mem_insert.mp hz with rfl | hz
      · omega
      · have hz' := hout z hz
        omega
    · omega
  · rcases hstop with ⟨h1, h2⟩ | ⟨-, h1 | h1⟩
    · omega
    · refine .inr ⟨by omega, fun z hz => ?_⟩
      rcases Finset.mem_insert.mp hz with rfl | hz
      · omega
      · have hz' := hin z hz
        omega
    · refine .inl ⟨h1, fun z hz => ?_⟩
      rcases Finset.mem_insert.mp hz with rfl | hz
      · omega
      · have hz' := hin z hz
        omega

/-- Nothing comes between two other blocks. -/
theorem ring_between (h : Blocks F len next) (hc : c ∈ F) (hstop : Stop next b c) (hx : x ∈ F) (hxc : x ≠ c) :
    CycNext (insert b F) x (next x) := by
  obtain ⟨hmem, hx'⟩ := h.ring x hx
  refine ⟨Finset.mem_insert_of_mem hmem, ?_⟩
  obtain ⟨-, hc'⟩ := h.ring c hc
  have hnc := h.next_mem hc
  rcases hx' with ⟨hlt, hout⟩ | ⟨hle, hin⟩
  · refine .inl ⟨hlt, fun z hz => ?_⟩
    rcases Finset.mem_insert.mp hz with rfl | hz
    · have h1 := hout c hc
      have h2 := hout _ hnc
      rcases hc' with ⟨hlt', hout'⟩ | ⟨hle', hin'⟩
      · have h3 := hout' x hx
        have h4 := hout' _ hmem
        rcases hstop with ⟨h5, h6⟩ | ⟨h5, -⟩
        · omega
        · omega
      · have h3 := hin' x hx
        have h4 := hin' _ hmem
        rcases hstop with ⟨h5, h6⟩ | ⟨-, h5 | h5⟩
        · omega
        · omega
        · omega
    · exact hout z hz
  · refine .inr ⟨hle, fun z hz => ?_⟩
    rcases Finset.mem_insert.mp hz with rfl | hz
    · have h1 := hin c hc
      have h2 := hin _ hnc
      rcases hc' with ⟨hlt', hout'⟩ | ⟨hle', hin'⟩
      · rcases hstop with ⟨h5, h6⟩ | ⟨h5, -⟩
        · omega
        · omega
      · have h3 := hin' x hx
        exact absurd (by omega) hxc
    · exact hin z hz

theorem ring_insert (h : Blocks F len next) (hc : c ∈ F) (hstop : Stop next b c) (hx : x ∈ insert b F) :
    CycNext (insert b F) x (Function.update (Function.update next b (next c)) c b x) := by
  by_cases hxc : x = c
  · rw [hxc, Function.update_self]
    exact h.ring_before hc hstop
  · rw [Function.update_of_ne hxc]
    by_cases hxb : x = b
    · rw [hxb, Function.update_self]
      exact h.ring_behind hc hstop
    · rw [Function.update_of_ne hxb]
      exact h.ring_between hc hstop ((Finset.mem_insert.mp hx).resolve_left hxb) hxc

theorem insert (h : Blocks F len next) (hc : c ∈ F) (hb : b ∉ F) (hstop : Stop next b c) (hpos : 0 < n)
    (hapart : ∀ z ∈ F, z + len z ≤ b ∨ b + n ≤ z) :
    Blocks (insert b F) (Function.update len b n) (Function.update (Function.update next b (next c)) c b) where
  ring x hx := h.ring_insert hc hstop hx
  pos := by
    intro x hx
    by_cases hxb : x = b
    · rw [hxb, Function.update_self]
      exact hpos
    · rw [Function.update_of_ne hxb]
      exact h.pos x ((Finset.mem_insert.mp hx).resolve_left hxb)
  packed := by
    intro x hx y hy hlt
    rcases Finset.mem_insert.mp hx with rfl | hxF
    · rw [Function.update_self]
      have hyF : y ∈ F := (Finset.mem_insert.mp hy).resolve_left (by omega)
      have hy' := hapart y hyF
      omega
    · have hxb : x ≠ b := fun he => hb (he ▸ hxF)
      rw [Function.update_of_ne hxb]
      rcases Finset.mem_insert.mp hy with rfl | hyF
      · have hx' := hapart x hxF
        omega
      · exact h.packed x hxF y hyF hlt

/-- The new block touches its neighbours only. -/
theorem touch_insert (h : Blocks F len next) (hc : c ∈ F) (hb : b ∉ F) (hstop : Stop next b c) (hpos : 0 < n)
    (hapart : ∀ z ∈ F, z + len z ≤ b ∨ b + n ≤ z) (ht : Touch (Insert.insert b F) (Function.update len b n) x y) :
    Touch F len x y ∨ x = b ∧ y = next c ∨ x = c ∧ y = b := by
  obtain ⟨hx, hy, hxy⟩ := ht
  have hnc := h.next_mem hc
  obtain ⟨-, hring⟩ := h.ring c hc
  by_cases hxb : x = b
  · subst hxb
    rw [Function.update_self] at hxy
    have hyF : y ∈ F := (Finset.mem_insert.mp hy).resolve_left (by omega)
    have h1 := hapart _ hnc
    have h2 := h.pos _ hnc
    refine .inr (.inl ⟨rfl, ?_⟩)
    rcases hring with ⟨hlt, hout⟩ | ⟨hle, hin⟩
    · have h3 := hout y hyF
      rcases hstop with ⟨h5, h6⟩ | ⟨h5, -⟩
      · omega
      · omega
    · have h3 := hin y hyF
      rcases hstop with ⟨h5, h6⟩ | ⟨-, h5 | h5⟩
      · omega
      · omega
      · omega
  · rw [Function.update_of_ne hxb] at hxy
    have hxF : x ∈ F := (Finset.mem_insert.mp hx).resolve_left hxb
    rcases Finset.mem_insert.mp hy with rfl | hyF
    · refine .inr (.inr ⟨?_, rfl⟩)
      have h1 := h.pos x hxF
      have h2 := h.packed x hxF c hc
      rcases hring with ⟨hlt, hout⟩ | ⟨hle, hin⟩
      · have h3 := hout x hxF
        rcases hstop with ⟨h5, h6⟩ | ⟨h5, -⟩
        · omega
        · omega
      · have h3 := hin x hxF
        rcases hstop with ⟨h5, h6⟩ | ⟨-, h5 | h5⟩
        · omega
        · omega
        · omega
    · exact .inl ⟨hxF, hyF, hxy⟩

/-! ## Taking a block out -/

theorem ring_erase (h : Blocks F len next) (hx : x ∈ F) (hne : next x ≠ x) (hz : z ∈ F.erase (next x)) :
    CycNext (F.erase (next x)) z (Function.update next x (next (next x)) z) := by
  obtain ⟨hzy, hzF⟩ := Finset.mem_erase.mp hz
  have hy := h.next_mem hx
  obtain ⟨-, hringx⟩ := h.ring x hx
  obtain ⟨hyy, hringy⟩ := h.ring _ hy
  by_cases hzx : z = x
  · subst hzx
    rw [Function.update_self]
    rcases hringx with ⟨h1, h2⟩ | ⟨h1, h2⟩
    · rcases hringy with ⟨h3, h4⟩ | ⟨h3, h4⟩
      · refine ⟨Finset.mem_erase.mpr ⟨by omega, hyy⟩, .inl ⟨by omega, fun w hw => ?_⟩⟩
        obtain ⟨hwy, hwF⟩ := Finset.mem_erase.mp hw
        have h5 := h2 w hwF
        have h6 := h4 w hwF
        omega
      · have h5 := h4 z hx
        refine ⟨Finset.mem_erase.mpr ⟨by omega, hyy⟩, .inr ⟨by omega, fun w hw => ?_⟩⟩
        obtain ⟨hwy, hwF⟩ := Finset.mem_erase.mp hw
        have h6 := h2 w hwF
        have h7 := h4 w hwF
        omega
    · -- `x` was the last one, and the first one is taken out
      have h5 := h2 _ hyy
      rcases hringy with ⟨h3, h4⟩ | ⟨h3, h4⟩
      · refine ⟨Finset.mem_erase.mpr ⟨by omega, hyy⟩, .inr ⟨by omega, fun w hw => ?_⟩⟩
        obtain ⟨hwy, hwF⟩ := Finset.mem_erase.mp hw
        have h6 := h2 w hwF
        have h7 := h4 w hwF
        omega
      · have h6 := h4 z hx
        exact absurd (by omega) hne
  · rw [Function.update_of_ne hzx]
    obtain ⟨hnz, hringz⟩ := h.ring z hzF
    have hnzy : next z ≠ next x := by
      intro he
      rw [he] at hringz
      have h5 := h.ring x hx
      rcases hringx with ⟨h1, h2⟩ | ⟨h1, h2⟩
      · have h3 := h2 z hzF
        rcases hringz with ⟨h6, h7⟩ | ⟨h6, h7⟩
        · have h8 := h7 x hx
          omega
        · have h8 := h7 x hx
          omega
      · have h3 := h2 z hzF
        rcases hringz with ⟨h6, h7⟩ | ⟨h6, h7⟩
        · omega
        · have h8 := h7 x hx
          omega
    refine ⟨Finset.mem_erase.mpr ⟨hnzy, hnz⟩, ?_⟩
    refine hringz.imp (fun hr => ⟨hr.1, fun w hw => hr.2 w (Finset.mem_of_mem_erase hw)⟩) fun hr => ?_
    exact ⟨hr.1, fun w hw => hr.2 w (Finset.mem_of_mem_erase hw)⟩

/-- The block behind `x` is unlinked. -/
theorem unlink (h : Blocks F len next) (hx : x ∈ F) (hne : next x ≠ x) :
    Blocks (F.erase (next x)) len (Function.update next x (next (next x))) where
  ring _ hz := h.ring_erase hx hne hz
  pos z hz := h.pos z (Finset.mem_of_mem_erase hz)
  packed z hz w hw := h.packed z (Finset.mem_of_mem_erase hz) w (Finset.mem_of_mem_erase hw)

/-! ## Joining two blocks -/

/-- The block behind `x`, which touches it, becomes a part of `x`. -/
theorem absorb (h : Blocks F len next) (hx : x ∈ F) (ht : x + len x = next x) :
    Blocks (F.erase (next x)) (Function.update len x (len x + len (next x))) (Function.update next x (next (next x))) where
  ring _ hz := by
    have hpos := h.pos x hx
    exact h.ring_erase hx (by omega) hz
  pos z hz := by
    have hpos := h.pos z (Finset.mem_of_mem_erase hz)
    by_cases hzx : z = x
    · rw [hzx, Function.update_self]
      rw [hzx] at hpos
      omega
    · rw [Function.update_of_ne hzx]
      exact hpos
  packed z hz w hw hlt := by
    obtain ⟨hwy, hwF⟩ := Finset.mem_erase.mp hw
    have hzw := h.packed z (Finset.mem_of_mem_erase hz) w hwF hlt
    by_cases hzx : z = x
    · subst hzx
      rw [Function.update_self]
      have hpos := h.pos z hx
      have hyw := h.packed _ (h.next_mem hx) w hwF
      omega
    · rw [Function.update_of_ne hzx]
      exact hzw

/-- It touches what the other one touched. -/
theorem touch_absorb {u v : Nat} (hy : y ∈ F) (ht : x + len x = y)
    (htouch : Touch (F.erase y) (Function.update len x (len x + len y)) u v) :
    u = x ∧ Touch F len y v ∨ u ≠ x ∧ Touch F len u v := by
  obtain ⟨huF, hvF, huv⟩ := htouch
  replace huF := Finset.mem_of_mem_erase huF
  replace hvF := Finset.mem_of_mem_erase hvF
  by_cases hux : u = x
  · rw [hux, Function.update_self] at huv
    exact .inl ⟨hux, hy, hvF, by omega⟩
  · rw [Function.update_of_ne hux] at huv
    exact .inr ⟨hux, huF, hvF, huv⟩

/-! ## Cutting a block -/

/-- The lower end of `c`, of length `n`, is cut off; the rest of it takes its place behind `p`. -/
theorem cut {p : Nat} (h : Blocks F len next) (hnt : NoTouch F len) (hp : p ∈ F) (hpc : next p = c) (hne : c ≠ p) (hpos : 0 < n)
    (hlt : n < len c) :
    Blocks (Insert.insert (c + n) (F.erase c)) (Function.update len (c + n) (len c - n))
        (Function.update (Function.update next (c + n) (next c)) p (c + n)) ∧
      NoTouch (Insert.insert (c + n) (F.erase c)) (Function.update len (c + n) (len c - n)) := by
  have hc : c ∈ F := hpc ▸ h.next_mem hp
  have hb : c + n ∉ F := by
    intro hmem
    have hle := h.packed c hc _ hmem (by omega)
    omega
  -- first `c` is made shorter, then the rest is put behind it, and then `c` is unlinked
  have hshort : Blocks F (Function.update len c n) next := by
    refine ⟨h.ring, fun x hx => ?_, fun x hx y hy hxy => ?_⟩
    · by_cases hxc : x = c
      · rw [hxc, Function.update_self]
        exact hpos
      · rw [Function.update_of_ne hxc]
        exact h.pos x hx
    · have hle := h.packed x hx y hy hxy
      by_cases hxc : x = c
      · rw [hxc] at hle ⊢
        rw [Function.update_self]
        omega
      · rwa [Function.update_of_ne hxc]
  have hstop : Stop next (c + n) c := by
    obtain ⟨hmem, ⟨h1, -⟩ | ⟨h1, -⟩⟩ := h.ring c hc
    · have hle := h.packed c hc _ hmem h1
      exact .inl ⟨by omega, by omega⟩
    · exact .inr ⟨h1, .inl (by omega)⟩
  have hapart : ∀ z ∈ F, z + Function.update len c n z ≤ c + n ∨ c + n + (len c - n) ≤ z := by
    intro z hz
    rcases Nat.lt_trichotomy z c with hzc | rfl | hzc
    · have hle := h.packed z hz c hc hzc
      rw [Function.update_of_ne (by omega)]
      exact .inl (by omega)
    · rw [Function.update_self]
      exact .inl (Nat.le_refl _)
    · have hle := h.packed c hc z hz hzc
      exact .inr (by omega)
  have hrest : 0 < len c - n := by omega
  have hins := hshort.insert hc hb hstop hrest hapart
  have hpb : p ≠ c + n := fun he => hb (he ▸ hp)
  have hnp : Function.update (Function.update next (c + n) (next c)) c (c + n) p = c := by
    rw [Function.update_of_ne hne.symm, Function.update_of_ne hpb, hpc]
  have hout := hins.unlink (Finset.mem_insert_of_mem hp) (by rw [hnp]; exact hne)
  rw [hnp, Function.update_self, Finset.erase_insert_of_ne (by omega)] at hout
  have hcases : ∀ x ∈ Insert.insert (c + n) (F.erase c), x = c + n ∨ x ≠ c ∧ x ≠ c + n ∧ x ∈ F := by
    intro x hx
    by_cases hxb : x = c + n
    · exact .inl hxb
    · obtain ⟨hxc, hxF⟩ := Finset.mem_erase.mp ((Finset.mem_insert.mp hx).resolve_left hxb)
      exact .inr ⟨hxc, hxb, hxF⟩
  refine ⟨hout.congr ?_ ?_, ?_⟩
  · intro x hx
    rcases hcases x hx with rfl | ⟨hxc, hxb, -⟩
    · rw [Function.update_self, Function.update_self]
    · rw [Function.update_of_ne hxb, Function.update_of_ne hxb, Function.update_of_ne hxc]
  · intro x hx
    by_cases hxp : x = p
    · rw [hxp, Function.update_self, Function.update_self]
    · rw [Function.update_of_ne hxp, Function.update_of_ne hxp]
      rcases hcases x hx with rfl | ⟨hxc, -, -⟩
      · rw [Function.update_self, Function.update_of_ne (by omega), Function.update_self]
      · rw [Function.update_of_ne hxc]
  · -- what touched the rest of `c` would have touched `c`
    rintro x y ⟨hx, hy, hxy⟩
    rcases hcases y hy with rfl | ⟨hyc, hyb, hyF⟩
    · rcases hcases x hx with rfl | ⟨hxc, hxb, hxF⟩
      · rw [Function.update_self] at hxy
        omega
      · rw [Function.update_of_ne hxb] at hxy
        have hposx := h.pos x hxF
        rcases Nat.lt_trichotomy x c with hlt' | rfl | hlt'
        · have hle := h.packed x hxF c hc hlt'
          omega
        · exact hxc rfl
        · have hle := h.packed c hc x hxF hlt'
          omega
    · rcases hcases x hx with rfl | ⟨hxc, hxb, hxF⟩
      · rw [Function.update_self] at hxy
        exact hnt c y ⟨hc, hyF, by omega⟩
      · rw [Function.update_of_ne hxb] at hxy
        exact hnt x y ⟨hxF, hyF, hxy⟩

end Blocks

/-! ## What the blocks cover -/

/-- The addresses of the blocks. -/
def Covered (F : Finset Nat) (len : Nat → Nat) (a : Nat) : Prop := ∃ x ∈ F, x ≤ a ∧ a < x + len x

/-- The lengths of all blocks together. -/
def total (F : Finset Nat) (len : Nat → Nat) : Nat := ∑ x ∈ F, len x

section Covered

variable {a : Nat}

theorem Covered.congr (hlen : ∀ x ∈ F, len' x = len x) : Covered F len' a ↔ Covered F len a :=
  exists_congr fun x => and_congr_right fun hx => by rw [hlen x hx]

theorem total_congr (hlen : ∀ x ∈ F, len' x = len x) : total F len' = total F len := Finset.sum_congr rfl hlen

/-- The lengths of the old blocks stay. -/
theorem update_of_notMem (hb : b ∉ F) (len : Nat → Nat) (n : Nat) : ∀ x ∈ F, Function.update len b n x = len x := by
  intro x hx
  refine Function.update_of_ne ?_ _ _
  rintro rfl
  exact hb hx

theorem covered_insert (hb : b ∉ F) :
    Covered (Insert.insert b F) (Function.update len b n) a ↔ Covered F len a ∨ b ≤ a ∧ a < b + n := by
  have hkeep := update_of_notMem hb len n
  constructor
  · rintro ⟨x, hx, hxa⟩
    rcases Finset.mem_insert.mp hx with rfl | hx
    · rw [Function.update_self] at hxa
      exact .inr hxa
    · rw [hkeep x hx] at hxa
      exact .inl ⟨x, hx, hxa⟩
  · rintro (⟨x, hx, hxa⟩ | hba)
    · refine ⟨x, Finset.mem_insert_of_mem hx, ?_⟩
      rwa [hkeep x hx]
    · refine ⟨b, Finset.mem_insert_self _ _, ?_⟩
      rwa [Function.update_self]

theorem total_insert (hb : b ∉ F) : total (Insert.insert b F) (Function.update len b n) = total F len + n := by
  have hkeep := update_of_notMem hb len n
  rw [total, Finset.sum_insert hb, Function.update_self, Finset.sum_congr rfl hkeep, Nat.add_comm]
  rfl

theorem covered_erase (hx : x ∈ F) : Covered F len a ↔ Covered (F.erase x) len a ∨ x ≤ a ∧ a < x + len x := by
  constructor
  · rintro ⟨y, hy, hya⟩
    by_cases hyx : y = x
    · rw [hyx] at hya
      exact .inr hya
    · exact .inl ⟨y, Finset.mem_erase.mpr ⟨hyx, hy⟩, hya⟩
  · rintro (⟨y, hy, hya⟩ | hxa)
    · exact ⟨y, Finset.mem_of_mem_erase hy, hya⟩
    · exact ⟨x, hx, hxa⟩

theorem total_erase (hx : x ∈ F) : total F len = total (F.erase x) len + len x := (Finset.sum_erase_add F len hx).symm

theorem covered_absorb (hx : x ∈ F) (hy : y ∈ F) (hxy : x + len x = y) (hne : x ≠ y) :
    Covered (F.erase y) (Function.update len x (len x + len y)) a ↔ Covered F len a := by
  have hxe : x ∈ F.erase y := Finset.mem_erase.mpr ⟨hne, hx⟩
  have hkeep : ∀ z ∈ (F.erase y).erase x, Function.update len x (len x + len y) z = len z := fun z hz =>
    Function.update_of_ne (Finset.ne_of_mem_erase hz) _ _
  rw [covered_erase hxe, Covered.congr hkeep, Function.update_self, covered_erase (F := F) hy, covered_erase (F := F.erase y) hxe,
    or_assoc]
  refine or_congr_right ?_
  omega

theorem total_absorb (hx : x ∈ F) (hy : y ∈ F) (hne : x ≠ y) :
    total (F.erase y) (Function.update len x (len x + len y)) = total F len := by
  have hxe : x ∈ F.erase y := Finset.mem_erase.mpr ⟨hne, hx⟩
  have hkeep : ∀ z ∈ (F.erase y).erase x, Function.update len x (len x + len y) z = len z := fun z hz =>
    Function.update_of_ne (Finset.ne_of_mem_erase hz) _ _
  rw [total_erase hxe, total_congr hkeep, Function.update_self, total_erase (F := F) hy, total_erase (F := F.erase y) hxe]
  omega

/-- The lower end of `c` is no longer covered. -/
theorem covered_cut (hc : c ∈ F) (hb : c + n ∉ F) (hpos : 0 < n) (hlt : n < len c) :
    Covered F len a ↔
      Covered (Insert.insert (c + n) (F.erase c)) (Function.update len (c + n) (len c - n)) a ∨ c ≤ a ∧ a < c + n := by
  rw [covered_insert (fun hmem => hb (Finset.mem_of_mem_erase hmem)), covered_erase hc, or_assoc]
  refine or_congr_right ?_
  omega

theorem total_cut (hc : c ∈ F) (hb : c + n ∉ F) (hlt : n < len c) :
    total F len = total (Insert.insert (c + n) (F.erase c)) (Function.update len (c + n) (len c - n)) + n := by
  rw [total_insert (fun hmem => hb (Finset.mem_of_mem_erase hmem)), total_erase hc]
  omega

/-- An address is in one block only. -/
theorem Blocks.one_block (h : Blocks F len next) (hc : c ∈ F) (hca : c ≤ a ∧ a < c + len c) : ¬ Covered (F.erase c) len a := by
  rintro ⟨x, hx, hxa⟩
  obtain ⟨hxc, hxF⟩ := Finset.mem_erase.mp hx
  rcases Nat.lt_or_gt_of_ne hxc with hlt | hlt
  · have hle := h.packed x hxF c hc hlt
    omega
  · have hle := h.packed c hc x hxF hlt
    omega

/-- Where no blocks touch, two addresses next to each other are in one block. -/
theorem same_block (h : Blocks F len next) (hnt : NoTouch F len) (hx : x ∈ F) (hxa : x ≤ a ∧ a < x + len x) (hy : y ∈ F)
    (hya : y ≤ a + 1 ∧ a + 1 < y + len y) : x = y := by
  rcases Nat.lt_trichotomy x y with hxy | hxy | hxy
  · have hle := h.packed x hx y hy hxy
    exact absurd ⟨hx, hy, by omega⟩ (hnt x y)
  · exact hxy
  · have hle := h.packed y hy x hx hxy
    omega

/-- A stretch of covered addresses is in one block. -/
theorem same_stretch (h : Blocks F len next) (hnt : NoTouch F len) {d : Nat} (hcov : ∀ i < n, Covered F len (d + i))
    (hx : x ∈ F) (hxd : x ≤ d ∧ d < x + len x) : d + n ≤ x + len x := by
  by_contra hend
  -- the address behind `x` would be covered by a block that touches `x`
  obtain ⟨y, hy, hya⟩ := hcov (x + len x - d) (by omega)
  have hposx := h.pos x hx
  have hsame := same_block (a := x + len x - 1) h hnt hx ⟨by omega, by omega⟩ hy ⟨by omega, by omega⟩
  rw [hsame] at hxd
  rw [hsame] at hya hend hposx
  omega

end Covered

end Ucore
