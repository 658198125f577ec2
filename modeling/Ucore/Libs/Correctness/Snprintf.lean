import Ucore.Libs.Correctness.Formats

/-!
# `Libs.Correctness.Snprintf` — what `vsnprintf` leaves in the buffer

The sink counts every character and stores those that leave room for the NUL (`sprintputch_text`). So `vsnprintf` is right as
long as the count is an `int` and no `%e` gets the smallest `int`, whose negation is itself, and which is then used as an index
(`vsnprintf_right_iff`).
-/

namespace Ucore.Printfmt

/-- A buffer: an object of `size` bytes, which has an address and does not reach over the end of the memory. -/
structure Buffer where
  str : Nat
  size : Nat
  pos : 1 ≤ size
  ne_null : str ≠ 0
  fits : str + size ≤ 2 ^ 64

/-! ## The sink -/

/-- The bytes that the characters of a text are stored as -/
def stored (txt : List Int) : Bytes := fun i => UInt8.ofInt (txt.getD i 0)

theorem stored_cons (ch : Int) (txt : List Int) (i : Nat) : stored (ch :: txt) (i + 1) = stored txt i := rfl

/-- One byte, and those behind it. -/
theorem memcpy_stored (mem : Bytes) (d : Nat) (ch : Int) (txt : List Int) (n : Nat) :
    memcpy (Function.update mem d (UInt8.ofInt ch)) (d + 1) (stored txt) 0 n = memcpy mem d (stored (ch :: txt)) 0 (n + 1) := by
  funext i
  by_cases h1 : d + 1 ≤ i ∧ i < d + 1 + n
  · have hi : i - d = i - (d + 1) + 1 := by omega
    rw [memcpy_in h1, memcpy_in (by omega), hi, Nat.zero_add, Nat.zero_add, stored_cons]
  · rw [memcpy_out h1]
    by_cases hd : i = d
    · subst hd
      rw [Function.update_self, memcpy_in ⟨le_rfl, by omega⟩, Nat.sub_self]
      rfl
    · rw [Function.update_of_ne hd, memcpy_out (by omega)]

theorem int32_add (a b : Int) : int32 (int32 a + b) = int32 (a + b) := Int.bmod_add_bmod

theorem int32_int32 (a : Int) : int32 (int32 a) = int32 a := Int.bmod_bmod

theorem int32_lt (a : Int) : int32 a < 2 ^ 31 := Int.bmod_lt (by decide)

/-- **The sink.** It stores what there is room for, and counts everything. -/
theorem sprintputch_text (txt : List Int) (b : Sprintbuf) (hbuf : b.buf ≤ b.ebuf) (hcnt : int32 b.cnt = b.cnt) :
    txt.foldl (fun b ch => sprintputch ch b) b =
      { buf := b.buf + min txt.length (b.ebuf - b.buf), ebuf := b.ebuf, cnt := int32 (b.cnt + txt.length),
        mem := memcpy b.mem b.buf (stored txt) 0 (min txt.length (b.ebuf - b.buf)) } := by
  induction txt generalizing b with
  | nil =>
    rw [List.foldl_nil, List.length_nil, Nat.zero_min, memcpy_zero, Int.natCast_zero, Int.add_zero, hcnt]
    rfl
  | cons ch txt ih =>
    have hsum : int32 (int32 (b.cnt + 1) + txt.length) = int32 (b.cnt + (ch :: txt).length) := by
      rw [int32_add, List.length_cons]
      congr 1
      push_cast
      ring
    rw [List.foldl_cons]
    by_cases hroom : b.buf < b.ebuf
    · have hstep : sprintputch ch b =
          { buf := b.buf + 1, ebuf := b.ebuf, cnt := int32 (b.cnt + 1), mem := Function.update b.mem b.buf (UInt8.ofInt ch) } :=
        if_pos hroom
      have hmin : min (ch :: txt).length (b.ebuf - b.buf) = min txt.length (b.ebuf - (b.buf + 1)) + 1 := by
        rw [List.length_cons]
        omega
      have hrest := ih { buf := b.buf + 1, ebuf := b.ebuf, cnt := int32 (b.cnt + 1),
                         mem := Function.update b.mem b.buf (UInt8.ofInt ch) } hroom (int32_int32 _)
      rw [hstep, hrest, hsum, hmin, memcpy_stored, Nat.add_assoc, Nat.add_comm 1]
    · have hstep : sprintputch ch b = { b with cnt := int32 (b.cnt + 1) } := if_neg hroom
      have hfull : b.ebuf - b.buf = 0 := by omega
      have hrest := ih { b with cnt := int32 (b.cnt + 1) } hbuf (int32_int32 _)
      rw [hstep, hrest, hsum]
      simp only [hfull, Nat.min_zero, memcpy_zero]

/-! ## The law -/

/-- What `vsnprintf` returns for the untruncated output `txt`: its length, as much of it as there is room for with a NUL behind
    it, and nothing else is written. -/
structure Stored (b : Buffer) (txt : List Int) (mem : Bytes) (r : Int × Bytes) : Prop where
  length : r.1 = txt.length
  text : ∀ i < min txt.length (b.size - 1), r.2 (b.str + i) = stored txt i
  nul : r.2 (b.str + min txt.length (b.size - 1)) = 0
  frame : ∀ a, ¬ (b.str ≤ a ∧ a < b.str + b.size) → r.2 a = mem a

theorem vsnprintf_run (b : Buffer) (mem : Bytes) {fmt : CString} {ap : List Arg} {ps : List Piece} {fuel : Nat}
    (h : Formats fmt.chars ap ps) (hfuel : fmt.chars.length + 80 < fuel) :
    vsnprintf fuel b.str b.size fmt ap mem =
      (outs sprintputch ps { buf := b.str, ebuf := b.str + (b.size - 1), cnt := 0, mem := mem }).bind
        fun r => .ok (r.cnt, Function.update r.mem r.buf 0) := by
  have hpos := b.pos
  have hfits := b.fits
  have hebuf : (b.str + b.size + 2 ^ 64 - 1) % 2 ^ 64 = b.str + (b.size - 1) := by omega
  have hok : ¬ (b.str = 0 ∨ b.str + (b.size - 1) < b.str) := by
    have := b.ne_null
    omega
  unfold vsnprintf
  simp only [hebuf]
  rw [if_neg hok, vprintfmt_run sprintputch h hfuel]
  rfl

/-- Without the smallest `int` among the error numbers, it is the text that goes into the buffer. -/
theorem vsnprintf_ok (b : Buffer) (mem : Bytes) {fmt : CString} {ap : List Arg} {ps : List Piece} {fuel : Nat}
    (h : Formats fmt.chars ap ps) (hps : ∀ p ∈ ps, ¬ p.wild) (hfuel : fmt.chars.length + 80 < fuel) :
    vsnprintf fuel b.str b.size fmt ap mem = .ok (int32 (text ps).length,
      Function.update (memcpy mem b.str (stored (text ps)) 0 (min (text ps).length (b.size - 1)))
        (b.str + min (text ps).length (b.size - 1)) 0) := by
  have hcnt : int32 0 = 0 := by decide
  have hsink := sprintputch_text (text ps) { buf := b.str, ebuf := b.str + (b.size - 1), cnt := 0, mem := mem }
    (Nat.le_add_right _ _) hcnt
  simp only [Nat.add_sub_cancel_left, Int.zero_add] at hsink
  rw [vsnprintf_run b mem h hfuel, outs_ok hps, hsink, Except.bind]

/-- The smallest `int` reads outside the table. -/
theorem vsnprintf_not_wild (b : Buffer) (mem : Bytes) {fmt : CString} {ap : List Arg} {ps : List Piece}
    (h : Formats fmt.chars ap ps) {enough : Nat} {r : Int × Bytes}
    (hrun : ∀ fuel, enough ≤ fuel → vsnprintf fuel b.str b.size fmt ap mem = .ok r) : ∀ p ∈ ps, ¬ p.wild := by
  have hlast := hrun (max enough (fmt.chars.length + 81)) (Nat.le_max_left _ _)
  have hfuel : fmt.chars.length + 80 < max enough (fmt.chars.length + 81) := Nat.le_max_right _ _
  intro p hp hw
  rw [vsnprintf_run b mem h hfuel, outs_wild ⟨p, hp, hw⟩] at hlast
  exact absurd hlast (by simp [Except.bind])

/-- **`vsnprintf`.** It returns with the text in the buffer exactly if no `%e` is given the smallest `int` and the length of
    the text is an `int`. -/
theorem vsnprintf_right_iff (b : Buffer) (mem : Bytes) (fmt : CString) (ap : List Arg) (ps : List Piece)
    (h : Formats fmt.chars ap ps) :
    (∃ enough r, (∀ fuel, enough ≤ fuel → vsnprintf fuel b.str b.size fmt ap mem = .ok r) ∧ Stored b (text ps) mem r) ↔
    (∀ v, Piece.error v ∈ ps → v ≠ BitVec.intMin 32) ∧ (text ps).length < 2 ^ 31 := by
  have hwild : (∀ p ∈ ps, ¬ p.wild) ↔ ∀ v, Piece.error v ∈ ps → v ≠ BitVec.intMin 32 := by
    constructor
    · exact fun hps v hv hmin => hps _ hv hmin
    · rintro hps (_ | v | _ | _) hp hw
      · exact hw
      · exact hps v hp hw
      · exact hw
      · exact hw
  have hpos := b.pos
  constructor
  · rintro ⟨enough, r, hrun, hr⟩
    have hlast := hrun (max enough (fmt.chars.length + 81)) (Nat.le_max_left _ _)
    have hfuel : fmt.chars.length + 80 < max enough (fmt.chars.length + 81) := Nat.le_max_right _ _
    have hps := vsnprintf_not_wild b mem h hrun
    rw [vsnprintf_ok b mem h hps hfuel] at hlast
    have hlen : int32 (text ps).length = ((text ps).length : Int) := by
      refine Eq.trans ?_ hr.length
      rw [← Except.ok.inj hlast]
    have hhi := int32_lt (text ps).length
    exact ⟨hwild.mp hps, by omega⟩
  · rintro ⟨hps, hlen⟩
    refine ⟨fmt.chars.length + 81, _, fun fuel hfuel => vsnprintf_ok b mem h (hwild.mpr hps) (by omega), ?_⟩
    constructor
    · simp only
      exact int32_of_range (by omega) (by omega)
    · intro i hi
      simp only
      rw [Function.update_of_ne (by omega), memcpy_in (by omega), Nat.zero_add, Nat.add_sub_cancel_left]
    · exact Function.update_self _ _ _
    · intro a ha
      simp only
      rw [Function.update_of_ne (by omega), memcpy_out (by omega)]

/-- A buffer of four bytes, for a text of five: it returns 5. -/
theorem vsnprintf_right_truncated : Formats (CString.lit "abcde").chars [] ((CString.lit "abcde").chars.map fun ch => .plain ch.toNat) ∧
    ∃ enough r, (∀ fuel, enough ≤ fuel → vsnprintf fuel 64 4 (CString.lit "abcde") [] (fun _ => 1) = .ok r) ∧
      Stored ⟨64, 4, by decide, by decide, by decide⟩ (text ((CString.lit "abcde").chars.map fun ch => .plain ch.toNat))
        (fun _ => 1) r := by
  have hf : Formats (CString.lit "abcde").chars [] ((CString.lit "abcde").chars.map fun ch => .plain ch.toNat) := by
    have h := (@Formats.done []).plains (by decide +kernel : ∀ d ∈ (CString.lit "abcde").chars, d ≠ '%'.toUInt8)
    rwa [List.append_nil, List.append_nil] at h
  refine ⟨hf, (vsnprintf_right_iff ⟨64, 4, by decide, by decide, by decide⟩ (fun _ => 1) _ _ _ hf).mpr ⟨?_, by decide⟩⟩
  simp

/-- `%e` of the smallest `int` reads outside the table. -/
theorem vsnprintf_wild_index : ∃ ps, Formats (CString.lit "%e").chars [.int (BitVec.intMin 32)] ps ∧
    ¬ ∃ enough r, (∀ fuel, enough ≤ fuel →
      vsnprintf fuel 64 16 (CString.lit "%e") [.int (BitVec.intMin 32)] (fun _ => 0) = .ok r) ∧
      Stored ⟨64, 16, by decide, by decide, by decide⟩ (text ps) (fun _ => 0) r := by
  have hf : Formats (CString.lit "%e").chars [.int (BitVec.intMin 32)] [.error (BitVec.intMin 32)] :=
    @Formats.directive _ _ 'e'.toUInt8 _ _ _ _ _ _ (.stop (by decide)) .e .done
  refine ⟨_, hf, fun ⟨_, _, hrun, _⟩ => ?_⟩
  exact vsnprintf_not_wild ⟨64, 16, by decide, by decide, by decide⟩ (fun _ => 0) hf hrun _ List.mem_cons_self rfl

end Ucore.Printfmt
