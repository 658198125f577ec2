import Ucore.Libs.Correctness.PrintNum
import Mathlib.Data.List.TakeWhile

/-!
# `Libs.Correctness.Formats` — what `vprintfmt` prints

A format with its arguments stands for a list of pieces (`Formats`); that there is one says that the arguments have the types
that the directives ask for. `vprintfmt` prints the texts of the pieces, one after the other, whatever the sink does with them
(`vprintfmt_run`), and there are arguments for every format (`formats_exists`).

The scan goes back over the characters of a directive that it does not know. These hold no `%`, so it comes to a halt behind the
`%` that it came from, prints that, and reads them a second time, as plain text.

## Contents
- **The grammar.** `Scans` for the flags, `Takes` for the conversion, `Formats`, `formats_exists`.
- **The text.** `Piece.text`, `Piece.out`.
- **Reading.** `Stands`: what is at a place of the format; `widthField_run`, `reswitch_run`, `stepBack_run`.
- **Printing.** `puts_run`, `Takes.run`, and the run.
-/

namespace Ucore.Printfmt

variable {σ : Type}

/-! ## The grammar -/

/-- The value of a width field -/
def fieldValue (precision : Int) (ds : List UInt8) : Int :=
  ds.foldl (fun precision ch => int32 (precision * 10 + ch.toNat - chr '0')) precision

/-- The labels that do not go back to `reswitch` -/
def Label.isConversion : Label → Bool
  | .minus | .zero | .digit | .star | .dot | .hash | .l => false
  | _ => true

/-- The flags at the begin of `cs`, up to the character `ch` that is none: what they say, and what they take. -/
inductive Scans : Flags → List UInt8 → List Arg → UInt8 → List UInt8 → Flags → List Arg → Prop where
  | nul {fl ap} : Scans fl [] ap 0 [] fl ap
  | stop {fl ch cs ap} (h : (label ch).isConversion = true) : Scans fl (ch :: cs) ap ch cs fl ap
  | minus {fl f cs ap ch rest fl' ap'} (h : label f = .minus) (hrest : Scans { fl with padc := chr '-' } cs ap ch rest fl' ap') :
      Scans fl (f :: cs) ap ch rest fl' ap'
  | zero {fl f cs ap ch rest fl' ap'} (h : label f = .zero) (hrest : Scans { fl with padc := chr '0' } cs ap ch rest fl' ap') :
      Scans fl (f :: cs) ap ch rest fl' ap'
  | width {fl f ds cs ap ch rest fl' ap'} (h : label f = .digit) (hds : ∀ d ∈ ds, isDigit d = true)
      (hend : ∀ d ∈ cs.head?, isDigit d = false)
      (hrest : Scans (fl.processPrecision (fieldValue 0 (f :: ds))) cs ap ch rest fl' ap') :
      Scans fl (f :: (ds ++ cs)) ap ch rest fl' ap'
  | star {fl f cs v ap ch rest fl' ap'} (h : label f = .star)
      (hrest : Scans (fl.processPrecision v.toInt) cs ap ch rest fl' ap') : Scans fl (f :: cs) (.int v :: ap) ch rest fl' ap'
  | dot {fl f cs ap ch rest fl' ap'} (h : label f = .dot)
      (hrest : Scans (if fl.width < 0 then { fl with width := 0 } else fl) cs ap ch rest fl' ap') :
      Scans fl (f :: cs) ap ch rest fl' ap'
  | hash {fl f cs ap ch rest fl' ap'} (h : label f = .hash) (hrest : Scans { fl with altflag := true } cs ap ch rest fl' ap') :
      Scans fl (f :: cs) ap ch rest fl' ap'
  | l {fl f cs ap ch rest fl' ap'} (h : label f = .l)
      (hrest : Scans { fl with lflag := int32 (fl.lflag + 1) } cs ap ch rest fl' ap') : Scans fl (f :: cs) ap ch rest fl' ap'

/-- What is printed for a directive or a plain character -/
inductive Piece where
  | plain (ch : Int)
  | error (v : BitVec 32)
  | str (fl : Flags) (p : Option CString)
  | num (before : List Int) (n base : Nat) (fl : Flags)

/-- The piece of a conversion, with the arguments in front of it and behind it. -/
inductive Takes : Label → Flags → List Arg → Piece → List Arg → Prop where
  | c {fl v ap} : Takes .c fl (.int v :: ap) (.plain v.toInt) ap
  | e {fl v ap} : Takes .e fl (.int v :: ap) (.error v) ap
  | s {fl p ap} : Takes .s fl (.str p :: ap) (.str fl p) ap
  | d {fl ap ap'} {num : BitVec 64} (h : getint fl.lflag ap = .ok (num, ap')) :
      Takes .d fl ap (if num.toInt < 0 then .num [chr '-'] (-num).toNat 10 fl else .num [] num.toNat 10 fl) ap'
  | u {fl ap ap'} {num : BitVec 64} (h : getuint fl.lflag ap = .ok (num, ap')) : Takes .u fl ap (.num [] num.toNat 10 fl) ap'
  | o {fl ap ap'} {num : BitVec 64} (h : getuint fl.lflag ap = .ok (num, ap')) : Takes .o fl ap (.num [] num.toNat 8 fl) ap'
  | p {fl p ap} : Takes .p fl (.ptr p :: ap) (.num [chr '0', chr 'x'] p.toNat 16 fl) ap
  | x {fl ap ap'} {num : BitVec 64} (h : getuint fl.lflag ap = .ok (num, ap')) : Takes .x fl ap (.num [] num.toNat 16 fl) ap'
  | percent {fl ap} : Takes .percent fl ap (.plain (chr '%')) ap

/-- The pieces that a format stands for, with arguments of the types that it asks for. -/
inductive Formats : List UInt8 → List Arg → List Piece → Prop where
  | done {ap} : Formats [] ap []
  | plain {ch cs ap ps} (h : ch ≠ '%'.toUInt8) (hrest : Formats cs ap ps) : Formats (ch :: cs) ap (.plain ch.toNat :: ps)
  | directive {cs ap ch rest fl ap' p ap'' ps} (h : Scans Flags.init cs ap ch rest fl ap') (ht : Takes (label ch) fl ap' p ap'')
      (hrest : Formats rest ap'' ps) : Formats ('%'.toUInt8 :: cs) ap (p :: ps)
  | unknown {cs ap ch rest fl ap' ps} (h : Scans Flags.init cs ap ch rest fl ap') (hd : label ch = .default)
      (hrest : Formats cs ap' ps) : Formats ('%'.toUInt8 :: cs) ap (.plain (chr '%') :: ps)

/-! ## The text -/

/-- The digits of a number, and the padding in front of them. -/
def numText (base num : Nat) (width padc : Int) : List Int :=
  List.replicate (int32 (width - (digits base num).length)).toNat padc ++ (digits base num).map digit

/-- The characters of a string that are printed -/
def shown (fl : Flags) (p : CString) : List UInt8 := if fl.precision < 0 then p.chars else p.chars.take fl.precision.toNat

/-- With `#`, a character that is not printable is printed as `?`. -/
def altChar (altflag : Bool) (ch : UInt8) : Int :=
  if altflag = true ∧ ((ch.toNat : Int) < chr ' ' ∨ chr '~' < (ch.toNat : Int)) then chr '?' else ch.toNat

/-- Padding in front of a string, and the width that is left. -/
def strPad (fl : Flags) (p : CString) : Nat × Int :=
  if 0 < fl.width ∧ fl.padc ≠ chr '-' then
    ((int32 (fl.width - strnlenPrec p fl.precision)).toNat, min (int32 (fl.width - strnlenPrec p fl.precision)) 0)
  else (0, fl.width)

/-- The width left behind a string of `n` characters, which are counted off it one by one. -/
def widthLeft (width : Int) : Nat → Int
  | 0     => width
  | n + 1 => widthLeft (int32 (width - 1)) n

def strText (fl : Flags) (p : CString) : List Int :=
  List.replicate (strPad fl p).1 fl.padc ++ (shown fl p).map (altChar fl.altflag)
    ++ List.replicate (widthLeft (strPad fl p).2 (shown fl p).length).toNat (chr ' ')

def codes (s : String) : List Int := (CString.lit s).chars.map fun ch => (ch.toNat : Int)

/-- The text of an error number; `-E_NO_MEM` and `E_NO_MEM` are equivalent. -/
def errorText (v : BitVec 32) : List Int :=
  match errorStrings.lookup (v.toInt.natAbs : Int) with
  | some t => codes t
  | none   => codes "error " ++ (digits 10 v.toInt.natAbs).map digit

def Piece.text : Piece → List Int
  | .plain ch               => [ch]
  | .error v                => errorText v
  | .str fl p               => strText fl (p.getD (CString.lit "(null)"))
  | .num before n base fl   => before ++ numText base n fl.width fl.padc

/-- The untruncated output -/
def text (ps : List Piece) : List Int := ps.flatMap Piece.text

/-- The smallest `int` is the error number that has no place in the table. -/
def Piece.wild : Piece → Prop
  | .error v => v = BitVec.intMin 32
  | _        => False

instance : DecidablePred Piece.wild
  | .error v              => inferInstanceAs (Decidable (v = BitVec.intMin 32))
  | .plain _              => inferInstanceAs (Decidable False)
  | .str _ _              => inferInstanceAs (Decidable False)
  | .num _ _ _ _          => inferInstanceAs (Decidable False)

/-- Printing a piece -/
def Piece.out (putch : Int → σ → σ) (p : Piece) (s : σ) : FmtM σ :=
  if p.wild then .error (.errorString (-2 ^ 31)) else .ok (p.text.foldl (fun s ch => putch ch s) s)

/-- Printing the pieces one after the other -/
def outs (putch : Int → σ → σ) (ps : List Piece) (s : σ) : FmtM σ := ps.foldlM (fun s p => p.out putch s) s

theorem outs_cons (putch : Int → σ → σ) (p : Piece) (ps : List Piece) (s : σ) :
    outs putch (p :: ps) s = (p.out putch s).bind (outs putch ps) := rfl

theorem out_of_not_wild {p : Piece} (h : ¬ p.wild) (putch : Int → σ → σ) (s : σ) :
    p.out putch s = .ok (p.text.foldl (fun s ch => putch ch s) s) := if_neg h

theorem not_wild_str {fl : Flags} {p : Option CString} : ¬ (Piece.str fl p).wild := id

theorem not_wild_num {before : List Int} {n base : Nat} {fl : Flags} : ¬ (Piece.num before n base fl).wild := id

theorem outs_ok {ps : List Piece} (h : ∀ p ∈ ps, ¬ p.wild) (putch : Int → σ → σ) (s : σ) :
    outs putch ps s = .ok ((text ps).foldl (fun s ch => putch ch s) s) := by
  induction ps generalizing s with
  | nil => rfl
  | cons p ps ih =>
    rw [outs_cons, out_of_not_wild (h p List.mem_cons_self)]
    have hrest := ih (fun q hq => h q (List.mem_cons_of_mem p hq)) (p.text.foldl (fun s ch => putch ch s) s)
    rw [text, List.flatMap_cons, List.foldl_append]
    exact hrest

theorem outs_wild {ps : List Piece} (h : ∃ p ∈ ps, p.wild) (putch : Int → σ → σ) (s : σ) :
    outs putch ps s = .error (.errorString (-2 ^ 31)) := by
  induction ps generalizing s with
  | nil => simp at h
  | cons p ps ih =>
    rw [outs_cons]
    by_cases hp : p.wild
    · rw [Piece.out, if_pos hp]
      rfl
    · obtain ⟨q, hq, hwild⟩ := h
      rcases List.mem_cons.mp hq with rfl | hq
      · exact absurd hwild hp
      · rw [out_of_not_wild hp]
        exact ih ⟨q, hq, hwild⟩ _

/-! ## Reading -/

/-- At the place `pos` of the format stand the characters `cs`, up to its end. -/
def Stands (fmt : CString) (pos : Nat) (cs : List UInt8) : Prop := ∃ pre, fmt.chars = pre ++ cs ∧ pre.length = pos

variable {fmt : CString} {pos fuel : Nat} {ch : UInt8} {cs ds : List UInt8}

theorem Stands.start (fmt : CString) : Stands fmt 0 fmt.chars := ⟨[], rfl, rfl⟩

theorem Stands.skip (h : Stands fmt pos (ds ++ cs)) : Stands fmt (pos + ds.length) cs := by
  obtain ⟨pre, hfmt, hpre⟩ := h
  exact ⟨pre ++ ds, by rw [hfmt, List.append_assoc], by rw [List.length_append, hpre]⟩

theorem Stands.next (h : Stands fmt pos (ch :: cs)) : Stands fmt (pos + 1) cs :=
  @Stands.skip fmt pos cs [ch] h

theorem Stands.read (h : Stands fmt pos (ch :: cs)) : readFmt fmt pos = .ok ch := by
  obtain ⟨pre, hfmt, rfl⟩ := h
  have hread : fmt.read pre.length = some ch := by
    rw [CString.read, hfmt, List.append_assoc, List.getElem?_append_right (Nat.le_refl _), Nat.sub_self]
    rfl
  rw [readFmt, hread]

theorem Stands.read_end (h : Stands fmt pos []) : readFmt fmt pos = .ok 0 := by
  obtain ⟨pre, hfmt, rfl⟩ := h
  have hread : fmt.read pre.length = some 0 := by
    rw [CString.read, hfmt, List.append_nil, List.getElem?_append_right (Nat.le_refl _), Nat.sub_self]
    rfl
  rw [readFmt, hread]

theorem isDigit_zero : isDigit 0 = false := by decide

/-- The width field ends at the first character that is no digit. -/
theorem widthField_run (hds : ∀ d ∈ ds, isDigit d = true) (hend : ∀ d ∈ cs.head?, isDigit d = false)
    (h : Stands fmt pos (ds ++ cs)) (hfuel : ds.length < fuel) (precision : Int) :
    widthField fmt fuel ch precision pos = .ok (fieldValue precision (ch :: ds), pos + ds.length) := by
  induction ds generalizing fuel pos precision ch with
  | nil =>
    obtain ⟨fuel, rfl⟩ := Nat.exists_eq_add_of_lt hfuel
    unfold widthField
    cases cs with
    | nil => simp [bind, Except.bind, Stands.read_end h, isDigit_zero, fieldValue]
    | cons d cs => simp [bind, Except.bind, Stands.read h, hend d rfl, fieldValue]
  | cons d ds ih =>
    cases fuel with
    | zero => omega
    | succ fuel =>
      have hd : isDigit d = true := hds d List.mem_cons_self
      rw [List.length_cons] at hfuel
      have hrest := @ih _ _ d (fun d' hd' => hds d' (List.mem_cons_of_mem d hd')) (Stands.next h)
        (by omega : ds.length < fuel) (int32 (precision * 10 + ch.toNat - chr '0'))
      have hlen : pos + (d :: ds).length = pos + 1 + ds.length := by
        rw [List.length_cons]
        omega
      unfold widthField
      rw [Stands.read h, hlen]
      refine Eq.trans (if_neg ?_) hrest
      rw [hd]
      exact Bool.noConfusion

theorem ne_percent_of_label {f : UInt8} (h : label f ≠ .percent) : f ≠ '%'.toUInt8 := by
  rintro rfl
  exact h (by decide)

theorem eq_percent_of_label {f : UInt8} : label f = .percent → f = '%'.toUInt8 := by
  have h : ∀ f : Fin 256, label (UInt8.ofFin f) = .percent → UInt8.ofFin f = '%'.toUInt8 := by decide +kernel
  exact h f.toFin

theorem ne_percent_of_isDigit {d : UInt8} (h : isDigit d = true) : d ≠ '%'.toUInt8 := by
  rintro rfl
  exact absurd h (by decide)

variable {fl fl' : Flags} {ap ap' ap'' : List Arg} {rest : List UInt8}

/-- `used` is what is read of `cs` before the character `ch` that ends a directive: it holds no `%`. -/
def Used (cs : List UInt8) (ch : UInt8) (rest used : List UInt8) : Prop :=
  (∀ f ∈ used, f ≠ '%'.toUInt8) ∧ (cs = used ++ ch :: rest ∨ cs = used ∧ ch = 0)

theorem Used.append {used : List UInt8} (h : Used cs ch rest used) (hds : ∀ f ∈ ds, f ≠ '%'.toUInt8) :
    Used (ds ++ cs) ch rest (ds ++ used) := by
  obtain ⟨hused, hcs⟩ := h
  refine ⟨fun f hf => (List.mem_append.mp hf).elim (hds f) (hused f), ?_⟩
  rcases hcs with rfl | ⟨rfl, h0⟩
  · exact .inl (List.append_assoc ds used (ch :: rest)).symm
  · exact .inr ⟨rfl, h0⟩

theorem Used.cons {f : UInt8} {used : List UInt8} (h : Used cs ch rest used) (hf : label f ≠ .percent) :
    Used (f :: cs) ch rest (f :: used) := by
  have hds : ∀ f' ∈ [f], f' ≠ '%'.toUInt8 := by
    intro f' hf'
    obtain rfl := List.mem_singleton.mp hf'
    exact ne_percent_of_label hf
  exact h.append hds

/-- `reswitch` reads the flags, up to the character that ends them. -/
theorem reswitch_run (h : Scans fl cs ap ch rest fl' ap') : ∀ {pos fuel : Nat}, Stands fmt pos cs → cs.length < fuel →
    ∃ used, reswitch fmt fuel pos fl ap = .ok (ch, pos + used.length + 1, fl', ap') ∧ Used cs ch rest used := by
  induction h with
  | nul =>
    intro pos fuel hs hfuel
    obtain ⟨fuel, rfl⟩ := Nat.exists_eq_add_of_lt hfuel
    refine ⟨[], ?_, fun f hf => absurd hf List.not_mem_nil, .inr ⟨rfl, rfl⟩⟩
    unfold reswitch
    rw [Stands.read_end hs]
    rfl
  | @stop fl ch cs ap h =>
    intro pos fuel hs hfuel
    obtain ⟨fuel, rfl⟩ := Nat.exists_eq_add_of_lt hfuel
    refine ⟨[], ?_, fun f hf => absurd hf List.not_mem_nil, .inl rfl⟩
    unfold reswitch
    rw [Stands.read hs]
    -- the labels that end the flags have one case
    cases hl : label ch <;> rw [hl] at h <;> first | exact absurd h Bool.noConfusion | simp [bind, Except.bind, hl]
  | @width fl f ds cs ap ch rest fl' ap' h hds hend hrest ih =>
    intro pos fuel hs hfuel
    cases fuel with
    | zero => omega
    | succ fuel =>
      simp only [List.length_cons, List.length_append] at hfuel
      have hfield := @widthField_run _ _ _ f _ _ hds hend hs.next (by omega : _ < fuel) 0
      obtain ⟨used, hrun, hused⟩ := ih (Stands.skip hs.next) (by omega : _ < fuel)
      refine ⟨f :: (ds ++ used), ?_, ?_⟩
      · have hplace : pos + (f :: (ds ++ used)).length + 1 = pos + 1 + ds.length + used.length + 1 := by
          rw [List.length_cons, List.length_append]
          omega
        unfold reswitch
        rw [hplace]
        simp only [Stands.read hs, bind, Except.bind, h, hfield]
        exact hrun
      · exact (hused.append fun d hd => ne_percent_of_isDigit (hds d hd)).cons (by rw [h]; exact Label.noConfusion)
  | minus h hrest ih | zero h hrest ih | star h hrest ih | dot h hrest ih | hash h hrest ih | l h hrest ih =>
    intro pos fuel hs hfuel
    cases fuel with
    | zero => omega
    | succ fuel =>
      simp only [List.length_cons] at hfuel
      obtain ⟨used, hrun, hused⟩ := ih hs.next (by omega : _ < fuel)
      refine ⟨_ :: used, ?_, hused.cons (by rw [h]; exact Label.noConfusion)⟩
      have hplace : ∀ f, pos + (f :: used).length + 1 = pos + 1 + used.length + 1 := by
        intro f
        rw [List.length_cons]
        omega
      unfold reswitch
      rw [hplace]
      simp only [Stands.read hs, bind, Except.bind, h, vaInt]
      exact hrun

/-- The way back ends behind the last `%`. -/
theorem stepBack_run {pre used : List UInt8} (hfmt : fmt.chars = pre ++ '%'.toUInt8 :: (used ++ cs))
    (hused : ∀ f ∈ used, f ≠ '%'.toUInt8) : ∀ k fuel, k ≤ used.length → k < fuel →
    stepBack fmt fuel (pre.length + 1 + k) = .ok (pre.length + 1) := by
  intro k
  induction k with
  | zero =>
    intro fuel _ hfuel
    obtain ⟨fuel, rfl⟩ := Nat.exists_eq_add_of_lt hfuel
    have hread : readFmt fmt pre.length = .ok '%'.toUInt8 := Stands.read ⟨pre, hfmt, rfl⟩
    rw [Nat.add_zero]
    unfold stepBack
    simp [bind, Except.bind, hread]
  | succ k ih =>
    intro fuel hk hfuel
    cases fuel with
    | zero => omega
    | succ fuel =>
      have hsplit : used = used.take k ++ used[k] :: used.drop (k + 1) := by
        rw [List.getElem_cons_drop, List.take_append_drop]
      have hstands : Stands fmt (pre.length + 1 + k) (used[k] :: (used.drop (k + 1) ++ cs)) := by
        refine ⟨pre ++ '%'.toUInt8 :: used.take k, ?_, ?_⟩
        · have htail : used ++ cs = used.take k ++ used[k] :: (used.drop (k + 1) ++ cs) := by
            rw [← List.cons_append, ← List.append_assoc, ← hsplit]
          rw [hfmt, htail, List.append_assoc, List.cons_append]
        · simp only [List.length_append, List.length_cons, List.length_take]
          omega
      have hne : used[k] ≠ '%'.toUInt8 := hused _ (List.getElem_mem _)
      have hrest := ih fuel (by omega) (by omega)
      rw [← Nat.add_assoc]
      unfold stepBack
      rw [Stands.read hstands]
      exact (if_pos hne).trans hrest

/-! ## Strings and numbers -/

theorem putchs_foldl (putch : Int → σ → σ) (ch : Int) (n : Nat) (s : σ) :
    putchs putch ch n s = (List.replicate n ch).foldl (fun s ch => putch ch s) s := by
  induction n generalizing s with
  | zero => rfl
  | succ n ih => rw [putchs, ih, List.replicate_succ, List.foldl_cons]

/-- The characters that are shown are those up to the precision. -/
theorem putsChars_run (putch : Int → σ → σ) (altflag : Bool) (p : List UInt8) (precision width : Int) (s : σ) :
    putsChars putch altflag p precision width s =
      (widthLeft width (if precision < 0 then p else p.take precision.toNat).length,
        ((if precision < 0 then p else p.take precision.toNat).map (altChar altflag)).foldl (fun s ch => putch ch s) s) := by
  induction p generalizing precision width s with
  | nil =>
    rw [putsChars, List.take_nil, ite_self]
    rfl
  | cons ch p ih =>
    unfold putsChars
    by_cases hneg : precision < 0
    · simp only [hneg, true_or, if_true]
      rw [ih, if_pos hneg]
      rfl
    · by_cases hzero : precision = 0
      · subst hzero
        rfl
      · have hpos : 0 ≤ precision - 1 := by omega
        have hsucc : precision.toNat = (precision - 1).toNat + 1 := by omega
        simp only [if_neg hneg, hpos, or_true, if_true]
        rw [ih, if_neg (by omega), hsucc, List.take_succ_cons]
        rfl

theorem puts_run (putch : Int → σ → σ) (fl : Flags) (p : Option CString) (s : σ) :
    puts putch fl p s = (Piece.str fl p).text.foldl (fun s ch => putch ch s) s := by
  have hleft : ∀ q, putsLeft putch fl q s =
      ((strPad fl q).2, (List.replicate (strPad fl q).1 fl.padc).foldl (fun s ch => putch ch s) s) := by
    intro q
    unfold putsLeft strPad
    split
    · rw [← putchs_foldl]
    · rfl
  unfold puts Piece.text strText
  simp only [hleft, putsChars_run, putchs_foldl, List.foldl_append]
  rfl

theorem printnum_text (putch : Int → σ → σ) {base num : Nat} (hb : 1 < base) (hnum : num < 2 ^ 64) (hfuel : 64 ≤ fuel)
    (width padc : Int) (s : σ) :
    printnum putch fuel num base width padc s = .ok ((numText base num width padc).foldl (fun s ch => putch ch s) s) := by
  have hlen : (digits base num).length ≤ 64 :=
    digits_length_le hb (by omega) (lt_of_lt_of_le hnum (Nat.pow_le_pow_left hb 64))
  rw [printnum_run putch padc hb fuel width s (hlen.trans hfuel), numText, List.foldl_append, putchs_foldl, List.foldl_map]

/-! ## Printing -/

/-- `case 'e'`: the number that is looked up -/
def errNumber (v : BitVec 32) : Int := if v.toInt < 0 then int32 (-v.toInt) else v.toInt

/-- From the fuel `K` on, the text of the piece is printed, if it is an error number with a place in the table. -/
def ErrRuns (putch : Int → σ → σ) (K : Nat) (p : Piece) : Prop :=
  ∀ v, p = .error v → ¬ p.wild → ∃ q, errText (errNumber v) = .ok q ∧ ∀ fuel, K ≤ fuel → ∀ s,
    vprintfmt putch fuel (errFormat (errNumber v) q).1 0 (errFormat (errNumber v) q).2 s =
      .ok (p.text.foldl (fun s ch => putch ch s) s)

/-- **One directive.** Behind its flags, a conversion prints its piece and goes on with the format. -/
theorem directive_run {putch : Int → σ → σ} {K pos' : Nat} {p : Piece} (hread : readFmt fmt pos = .ok '%'.toUInt8)
    (hswitch : reswitch fmt fuel (pos + 1) Flags.init ap = .ok (ch, pos', fl, ap')) (ht : Takes (label ch) fl ap' p ap'')
    (herr : ErrRuns putch K p) (hK : K ≤ fuel) (hfuel : 64 ≤ fuel) (s : σ) :
    vprintfmt putch (fuel + 1) fmt pos ap s = (p.out putch s).bind fun s => vprintfmt putch fuel fmt pos' ap'' s := by
  have hb10 : (1 : Nat) < 10 := by decide
  have hb8 : (1 : Nat) < 8 := by decide
  have hb16 : (1 : Nat) < 16 := by decide
  rw [vprintfmt, hread]
  simp only [bind, Except.bind, ne_eq, not_true_eq_false, if_false, hswitch]
  generalize hl : label ch = lb at ht
  cases ht with
  | c => rfl
  | percent =>
    rw [eq_percent_of_label hl]
    rfl
  | @e _ v _ =>
    by_cases hwild : (Piece.error v).wild
    · obtain rfl : v = BitVec.intMin 32 := hwild
      rfl
    · obtain ⟨q, hq, hrun⟩ := herr v rfl hwild
      change ((errText (errNumber v)).bind fun q =>
        (vprintfmt putch fuel (errFormat (errNumber v) q).1 0 (errFormat (errNumber v) q).2 s).bind fun s =>
          vprintfmt putch fuel fmt pos' ap'' s) = _
      rw [hq, out_of_not_wild hwild]
      change (vprintfmt putch fuel (errFormat (errNumber v) q).1 0 (errFormat (errNumber v) q).2 s).bind _ = _
      rw [hrun fuel hK s]
      rfl
  | s =>
    simp only [vaStr]
    rw [puts_run, out_of_not_wild not_wild_str]
  | @d _ _ _ num h =>
    simp only [h]
    by_cases hneg : num.toInt < 0
    · simp only [if_pos hneg]
      rw [printnum_text putch hb10 (-num).isLt hfuel, out_of_not_wild not_wild_num]
      rfl
    · simp only [if_neg hneg]
      rw [printnum_text putch hb10 num.isLt hfuel, out_of_not_wild not_wild_num]
      rfl
  | @p _ q _ =>
    simp only [vaPtr]
    rw [printnum_text putch hb16 q.isLt hfuel, out_of_not_wild not_wild_num]
    rfl
  | @u _ _ _ num h | @x _ _ _ num h | @o _ _ _ num h =>
    simp only [h]
    rw [printnum_text putch (by decide) num.isLt hfuel, out_of_not_wild not_wild_num]
    rfl

/-- A directive that is not known prints its `%`, and the rest of it is read again. -/
theorem unknown_run {putch : Int → σ → σ} (hs : Stands fmt pos ('%'.toUInt8 :: cs)) (h : Scans Flags.init cs ap ch rest fl ap')
    (hd : label ch = .default) (hfuel : cs.length < fuel) (s : σ) :
    vprintfmt putch (fuel + 1) fmt pos ap s = vprintfmt putch fuel fmt (pos + 1) ap' (putch (chr '%') s) := by
  obtain ⟨used, hswitch, hused, hcs⟩ := reswitch_run h hs.next hfuel
  have hread := hs.read
  obtain ⟨pre, hfmt, rfl⟩ := hs
  have hback : stepBack fmt fuel (pre.length + 1 + used.length + 1 - 1) = .ok (pre.length + 1) := by
    rcases hcs with rfl | ⟨rfl, -⟩
    · rw [List.length_append] at hfuel
      exact stepBack_run hfmt hused used.length fuel (Nat.le_refl _) (by omega)
    · have hend : fmt.chars = pre ++ '%'.toUInt8 :: (cs ++ []) := by rw [List.append_nil, hfmt]
      exact stepBack_run hend hused cs.length fuel (Nat.le_refl _) hfuel
  rw [vprintfmt, hread]
  simp only [bind, Except.bind, ne_eq, not_true_eq_false, if_false, hswitch, hd, hback]

theorem plain_run {putch : Int → σ → σ} (hs : Stands fmt pos (ch :: cs)) (hch : ch ≠ '%'.toUInt8) (s : σ) :
    vprintfmt putch (fuel + 1) fmt pos ap s = vprintfmt putch fuel fmt (pos + 1) ap (putch ch.toNat s) := by
  have hne : ch ≠ 0 := by
    obtain ⟨pre, hfmt, -⟩ := hs
    exact fmt.ne_zero ch (by rw [hfmt]; exact List.mem_append_right pre List.mem_cons_self)
  rw [vprintfmt, hs.read]
  exact (if_pos hch).trans (if_neg hne)

/-- **The run**, when the error texts are printed. -/
theorem vprintfmt_pieces {putch : Int → σ → σ} {K : Nat} (hK : 64 ≤ K) {ps : List Piece} (h : Formats cs ap ps) :
    (∀ p ∈ ps, ErrRuns putch K p) → ∀ {pos fuel : Nat}, Stands fmt pos cs → cs.length + K < fuel → ∀ s,
      vprintfmt putch fuel fmt pos ap s = outs putch ps s := by
  induction h with
  | done =>
    intro _ pos fuel hs hfuel s
    obtain ⟨fuel, rfl⟩ := Nat.exists_eq_add_of_lt hfuel
    rw [vprintfmt, hs.read_end]
    rfl
  | @plain ch cs ap ps hch _ ih =>
    intro herr pos fuel hs hfuel s
    cases fuel with
    | zero => omega
    | succ fuel =>
      rw [List.length_cons] at hfuel
      rw [plain_run hs hch, ih (fun p hp => herr p (List.mem_cons_of_mem _ hp)) hs.next (by omega)]
      rfl
  | @directive cs ap ch rest fl ap' p ap'' ps h ht _ ih =>
    intro herr pos fuel hs hfuel s
    cases fuel with
    | zero => omega
    | succ fuel =>
      rw [List.length_cons] at hfuel
      obtain ⟨used, hswitch, -, hcs⟩ := reswitch_run h hs.next (by omega : cs.length < fuel)
      -- a conversion is a character of the format, and not the NUL behind it
      have hrest : cs = used ++ ch :: rest := by
        refine hcs.resolve_right ?_
        rintro ⟨-, rfl⟩
        have h0 : label 0 = .default := by decide
        rw [h0] at ht
        cases ht
      have hstands : Stands fmt (pos + 1 + used.length + 1) rest := by
        have hs' := hs.next
        rw [hrest] at hs'
        exact (Stands.skip hs').next
      have hlen : rest.length ≤ cs.length := by
        rw [hrest, List.length_append, List.length_cons]
        omega
      rw [directive_run hs.read hswitch ht (herr p List.mem_cons_self) (by omega) (by omega), outs_cons]
      congr 1
      funext s'
      exact ih (fun q hq => herr q (List.mem_cons_of_mem p hq)) hstands (by omega) s'
  | @unknown cs ap ch rest fl ap' ps h hd _ ih =>
    intro herr pos fuel hs hfuel s
    cases fuel with
    | zero => omega
    | succ fuel =>
      rw [List.length_cons] at hfuel
      rw [unknown_run hs h hd (by omega), ih (fun p hp => herr p (List.mem_cons_of_mem _ hp)) hs.next (by omega)]
      rfl

/-! ## Error texts -/

theorem Formats.plains {ps : List Piece} (h : Formats cs ap ps) (hds : ∀ d ∈ ds, d ≠ '%'.toUInt8) :
    Formats (ds ++ cs) ap (ds.map (fun ch => Piece.plain ch.toNat) ++ ps) := by
  induction ds with
  | nil => exact h
  | cons d ds ih => exact .plain (hds d List.mem_cons_self) (ih fun d' hd' => hds d' (List.mem_cons_of_mem d hd'))

theorem text_plains (ds : List UInt8) (ps : List Piece) :
    text (ds.map (fun ch => Piece.plain ch.toNat) ++ ps) = ds.map (fun ch => (ch.toNat : Int)) ++ text ps := by
  rw [text, List.flatMap_append, ← text]
  congr 1
  induction ds with
  | nil => rfl
  | cons d ds ih => exact congrArg (List.cons (d.toNat : Int)) ih

theorem widthLeft_nonpos {width : Int} {n : Nat} (hw : width ≤ 0) (hn : -2 ^ 31 ≤ width - n) : widthLeft width n ≤ 0 := by
  induction n generalizing width with
  | zero => exact hw
  | succ n ih =>
    rw [widthLeft, int32_of_range (by omega) (by omega)]
    exact ih (by omega) (by omega)

/-- Without width and precision a string is printed as it is. -/
theorem strText_init {p : CString} (h : p.chars.length < 2 ^ 31) :
    strText Flags.init p = p.chars.map fun ch => (ch.toNat : Int) := by
  have hpad : strPad Flags.init p = (0, -1) := rfl
  have hshown : shown Flags.init p = p.chars := rfl
  have hwidth : (widthLeft (-1) p.chars.length).toNat = 0 := by
    have : widthLeft (-1) p.chars.length ≤ 0 := widthLeft_nonpos (by omega) (by omega)
    omega
  rw [strText, hpad, hshown, hwidth, List.replicate_zero, List.replicate_zero, List.append_nil, List.nil_append]
  rfl

theorem numText_init {n : Nat} (h : n < 2 ^ 64) : numText 10 n Flags.init.width Flags.init.padc = (digits 10 n).map digit := by
  have hlen : (digits 10 n).length ≤ 64 :=
    digits_length_le (by decide) (by decide) (lt_of_lt_of_le h (Nat.pow_le_pow_left (by decide) 64))
  have hpad : (int32 (Flags.init.width - (digits 10 n).length)).toNat = 0 := by
    have hw : Flags.init.width = -1 := rfl
    rw [hw, int32_of_range (by omega) (by omega)]
    omega
  rw [numText, hpad, List.replicate_zero, List.nil_append]

theorem errorStrings_le : ∀ kv ∈ errorStrings, kv.1 ≤ maxError ∧ (CString.lit kv.2).chars.length ≤ 64 := by decide

/-- Every number but the smallest `int` has its place in the table, or is larger than all that have one. -/
theorem errText_natAbs {n : Nat} : errText n = .ok ((errorStrings.lookup (n : Int)).map CString.lit) := by
  unfold errText
  split
  · next hlarge =>
    have hnone : errorStrings.lookup (n : Int) = none := by
      refine List.lookup_eq_none_iff.mpr fun kv hkv => ?_
      have hle := (errorStrings_le kv hkv).1
      rw [bne_iff_ne]
      omega
    rw [hnone]
    rfl
  · next hsmall => exact if_pos ⟨by omega, by omega⟩

theorem errNumber_natAbs {v : BitVec 32} (h : v ≠ BitVec.intMin 32) : errNumber v = v.toInt.natAbs := by
  have hlo := v.le_toInt
  have hhi := v.toInt_lt
  have hne : v.toInt ≠ -2 ^ 31 := fun heq => h (BitVec.eq_of_toInt_eq (heq.trans (by decide)))
  unfold errNumber
  split
  · rw [int32_of_range (by omega) (by omega)]
    omega
  · omega

theorem formats_errorNumber (n : Nat) (h : n < 2 ^ 31) : Formats (CString.lit "error %d").chars [.int (BitVec.ofInt 32 n)]
    ((CString.lit "error ").chars.map (fun ch => Piece.plain ch.toNat) ++ [.num [] n 10 Flags.init]) := by
  have hsplit : (CString.lit "error %d").chars = (CString.lit "error ").chars ++ ['%'.toUInt8, 'd'.toUInt8] := by decide
  have hint : (BitVec.ofInt 32 n).toInt = n := by
    rw [BitVec.toInt_ofInt]
    exact int32_of_range (by omega) (by omega)
  have hext : ((BitVec.ofInt 32 n).signExtend 64).toInt = n := by
    rw [BitVec.toInt_signExtend_of_le (by decide), hint]
  have hnat : ((BitVec.ofInt 32 n).signExtend 64).toNat = n := by
    have := BitVec.toInt_eq_toNat_cond ((BitVec.ofInt 32 n).signExtend 64)
    rw [hext] at this
    split at this <;> omega
  rw [hsplit]
  refine Formats.plains ?_ (by decide +kernel)
  have htake := @Takes.d Flags.init [.int (BitVec.ofInt 32 n)] [] ((BitVec.ofInt 32 n).signExtend 64) rfl
  rw [hext, if_neg (by omega), hnat] at htake
  exact .directive (.stop (by decide)) htake .done

theorem formats_errorString (p : CString) : Formats (CString.lit "%s").chars [.str (some p)] [.str Flags.init (some p)] :=
  @Formats.directive _ _ 's'.toUInt8 _ _ _ _ _ _ (.stop (by decide)) .s .done

/-- A format without error numbers prints the text of its pieces. -/
theorem vprintfmt_noErrors (putch : Int → σ → σ) {efmt : CString} {ps : List Piece} (h : Formats efmt.chars ap ps)
    (hno : ∀ p ∈ ps, ∀ v, p ≠ .error v) (hfuel : efmt.chars.length + 64 < fuel) (s : σ) :
    vprintfmt putch fuel efmt 0 ap s = .ok ((text ps).foldl (fun s ch => putch ch s) s) := by
  have herr : ∀ p ∈ ps, ErrRuns putch 64 p := fun p hp v hv => absurd hv (hno p hp v)
  have hwild : ∀ p ∈ ps, ¬ p.wild := by
    intro p hp hw
    cases p with
    | error v => exact hno _ hp v rfl
    | plain _ | str _ _ | num _ _ _ _ => exact hw
  rw [vprintfmt_pieces (le_refl 64) h herr (Stands.start efmt) hfuel, outs_ok hwild]

/-- The formats of `case 'e'` print the error texts. -/
theorem errRuns (putch : Int → σ → σ) (p : Piece) : ErrRuns putch 80 p := by
  rintro v rfl hwild
  have hnum := errNumber_natAbs hwild
  have hbound : v.toInt.natAbs < 2 ^ 31 := by
    have hhi : errNumber v < 2 ^ 31 := by
      unfold errNumber
      split
      · exact (Int.bmod_lt (by decide)).trans_le (by decide)
      · exact v.toInt_lt
    omega
  refine ⟨_, by rw [hnum]; exact errText_natAbs, fun fuel hfuel s => ?_⟩
  rw [hnum]
  cases hl : errorStrings.lookup (v.toInt.natAbs : Int) with
  | none =>
    have hlen : (CString.lit "error %d").chars.length = 8 := by decide
    have htext : text ((CString.lit "error ").chars.map (fun ch => Piece.plain ch.toNat)
        ++ [.num [] v.toInt.natAbs 10 Flags.init]) = errorText v := by
      rw [text_plains, errorText, hl, codes, ← numText_init (by omega)]
      exact congrArg _ (List.append_nil _)
    have hno : ∀ p ∈ (CString.lit "error ").chars.map (fun ch => Piece.plain ch.toNat)
        ++ [.num [] v.toInt.natAbs 10 Flags.init], ∀ v, p ≠ .error v := by
      intro p hp v
      rcases List.mem_append.mp hp with hp | hp
      · obtain ⟨ch, -, rfl⟩ := List.mem_map.mp hp
        exact Piece.noConfusion
      · rw [List.mem_singleton.mp hp]
        exact Piece.noConfusion
    have hrun := vprintfmt_noErrors putch (formats_errorNumber v.toInt.natAbs hbound) hno (by omega : _ < fuel) s
    rw [htext] at hrun
    exact hrun
  | some t =>
    have hlen : (CString.lit "%s").chars.length = 2 := by decide
    have hshort : (CString.lit t).chars.length ≤ 64 := by
      obtain ⟨l₁, l₂, hsplit, -⟩ := List.lookup_eq_some_iff.mp hl
      have hmem : ((v.toInt.natAbs : Int), t) ∈ errorStrings := by
        rw [hsplit]
        exact List.mem_append_right l₁ List.mem_cons_self
      exact (errorStrings_le _ hmem).2
    have htext : text [.str Flags.init (some (CString.lit t))] = errorText v := by
      rw [errorText, hl]
      exact (List.append_nil _).trans (strText_init (p := CString.lit t) (by omega))
    have hrun := vprintfmt_noErrors putch (formats_errorString (CString.lit t)) (by simp) (by omega : _ < fuel) s
    rw [htext] at hrun
    exact hrun

/-- **What `vprintfmt` prints**: the texts of the pieces, up to an error number that has no place in the table. -/
theorem vprintfmt_run (putch : Int → σ → σ) {ps : List Piece} (h : Formats fmt.chars ap ps)
    (hfuel : fmt.chars.length + 80 < fuel) (s : σ) : vprintfmt putch fuel fmt 0 ap s = outs putch ps s :=
  vprintfmt_pieces (by omega) h (fun p _ => errRuns putch p) (Stands.start fmt) hfuel s

/-! ## Arguments for every format -/

theorem scans_exists (cs : List UInt8) : ∀ fl, ∃ pre ch rest fl', rest.length ≤ cs.length ∧
    ∀ ap, Scans fl cs (pre ++ ap) ch rest fl' ap := by
  induction hn : cs.length using Nat.strong_induction_on generalizing cs with
  | _ n ih =>
    intro fl
    cases cs with
    | nil => exact ⟨[], 0, [], fl, Nat.zero_le _, fun ap => .nul⟩
    | cons f cs =>
      rw [List.length_cons] at hn
      subst hn
      have next := fun fl => ih cs.length (by omega) cs rfl fl
      cases hl : label f with
      | minus =>
        obtain ⟨pre, ch, rest, fl', hle, h⟩ := next { fl with padc := chr '-' }
        exact ⟨pre, ch, rest, fl', by omega, fun ap => .minus hl (h ap)⟩
      | zero =>
        obtain ⟨pre, ch, rest, fl', hle, h⟩ := next { fl with padc := chr '0' }
        exact ⟨pre, ch, rest, fl', by omega, fun ap => .zero hl (h ap)⟩
      | star =>
        obtain ⟨pre, ch, rest, fl', hle, h⟩ := next (fl.processPrecision (0 : BitVec 32).toInt)
        exact ⟨.int 0 :: pre, ch, rest, fl', by omega, fun ap => .star hl (h ap)⟩
      | dot =>
        obtain ⟨pre, ch, rest, fl', hle, h⟩ := next (if fl.width < 0 then { fl with width := 0 } else fl)
        exact ⟨pre, ch, rest, fl', by omega, fun ap => .dot hl (h ap)⟩
      | hash =>
        obtain ⟨pre, ch, rest, fl', hle, h⟩ := next { fl with altflag := true }
        exact ⟨pre, ch, rest, fl', by omega, fun ap => .hash hl (h ap)⟩
      | l =>
        obtain ⟨pre, ch, rest, fl', hle, h⟩ := next { fl with lflag := int32 (fl.lflag + 1) }
        exact ⟨pre, ch, rest, fl', by omega, fun ap => .l hl (h ap)⟩
      | digit =>
        -- the field takes all the digits that follow
        have hsplit : cs.takeWhile isDigit ++ cs.dropWhile isDigit = cs := List.takeWhile_append_dropWhile
        have hdrop : (cs.dropWhile isDigit).length ≤ cs.length := List.length_dropWhile_le isDigit cs
        obtain ⟨pre, ch, rest, fl', hle, h⟩ := ih (cs.dropWhile isDigit).length (by omega) (cs.dropWhile isDigit) rfl
          (fl.processPrecision (fieldValue 0 (f :: cs.takeWhile isDigit)))
        refine ⟨pre, ch, rest, fl', by omega, fun ap => ?_⟩
        have hw := Scans.width hl (fun d hd => List.mem_takeWhile_imp hd) (?_ : ∀ d ∈ (cs.dropWhile isDigit).head?, isDigit d = false) (h ap)
        · rwa [hsplit] at hw
        · intro d hd
          have := List.head?_dropWhile_not isDigit cs
          rw [Option.mem_def.mp hd] at this
          exact this
      | c | e | s | d | u | o | p | x | percent | default =>
        exact ⟨[], f, cs, fl, by omega, fun ap => .stop (by rw [hl]; rfl)⟩

theorem takes_exists {lb : Label} (h : lb.isConversion = true) (hd : lb ≠ .default) (fl : Flags) :
    ∃ pre p, ∀ ap, Takes lb fl (pre ++ ap) p ap := by
  -- the argument of a number is chosen by the length flag
  have num : ∀ extend, ∃ a v, ∀ ap, getNum extend fl.lflag (a :: ap) = .ok (v, ap) := by
    intro extend
    by_cases h0 : fl.lflag = 0
    · exact ⟨.int 0, extend 0, fun ap => if_pos h0⟩
    · by_cases h2 : 2 ≤ fl.lflag
      · exact ⟨.longLong 0, 0, fun ap => if_pos h2⟩
      · exact ⟨.long 0, 0, fun ap => if_pos ⟨by omega, h0⟩⟩
  cases lb with
  | minus | zero | digit | star | dot | hash | l => exact absurd h Bool.noConfusion
  | default => exact absurd rfl hd
  | c => exact ⟨[.int 0], _, fun ap => .c⟩
  | e => exact ⟨[.int 0], _, fun ap => .e⟩
  | s => exact ⟨[.str none], _, fun ap => .s⟩
  | p => exact ⟨[.ptr 0], _, fun ap => .p⟩
  | percent => exact ⟨[], _, fun ap => .percent⟩
  | d =>
    obtain ⟨a, v, hv⟩ := num (BitVec.signExtend 64)
    exact ⟨[a], _, fun ap => .d (hv ap)⟩
  | u =>
    obtain ⟨a, v, hv⟩ := num (BitVec.setWidth 64)
    exact ⟨[a], _, fun ap => .u (hv ap)⟩
  | o =>
    obtain ⟨a, v, hv⟩ := num (BitVec.setWidth 64)
    exact ⟨[a], _, fun ap => .o (hv ap)⟩
  | x =>
    obtain ⟨a, v, hv⟩ := num (BitVec.setWidth 64)
    exact ⟨[a], _, fun ap => .x (hv ap)⟩

theorem Scans.isConversion (h : Scans fl cs ap ch rest fl' ap') : (label ch).isConversion = true := by
  induction h with
  | nul => decide
  | stop h => exact h
  | width _ _ _ _ ih => exact ih
  | minus _ _ ih | zero _ _ ih | star _ _ ih | dot _ _ ih | hash _ _ ih | l _ _ ih => exact ih

/-- There are arguments of the types that a format asks for, whatever the format. -/
theorem formats_exists (cs : List UInt8) : ∃ ap ps, Formats cs ap ps := by
  induction hn : cs.length using Nat.strong_induction_on generalizing cs with
  | _ n ih =>
    cases cs with
    | nil => exact ⟨[], [], .done⟩
    | cons f cs =>
      rw [List.length_cons] at hn
      subst hn
      by_cases hf : f = '%'.toUInt8
      · subst hf
        obtain ⟨pre, ch, rest, fl, hle, hscan⟩ := scans_exists cs Flags.init
        by_cases hd : label ch = .default
        · obtain ⟨ap, ps, hrest⟩ := ih cs.length (by omega) cs rfl
          exact ⟨pre ++ ap, _, .unknown (hscan ap) hd hrest⟩
        · obtain ⟨taken, p, ht⟩ := takes_exists (hscan []).isConversion hd fl
          obtain ⟨ap, ps, hrest⟩ := ih rest.length (by omega) rest rfl
          exact ⟨pre ++ (taken ++ ap), _, .directive (hscan _) (ht ap) hrest⟩
      · obtain ⟨ap, ps, hrest⟩ := ih cs.length (by omega) cs rfl
        exact ⟨ap, _, .plain hf hrest⟩

end Ucore.Printfmt
