import Ucore.User.Sh

/-!
# `User.Correctness.GetToken` — the tokens of a command

`Lexes` is the grammar: what stands outside quotes and is no white space and no symbol is a word, as long as it goes. Repeated
calls of `gettoken` give the tokens of the grammar in order, and then 0 for ever (`gettoken_lexes`).

A call writes only from `*p1` on, so a word that has been returned stays as it is. It is followed by the NUL of the command, or by
a separator, on which the next call begins and which it overwrites.

## Contents
- **The grammar.** `Separates`, `IsWord`, `Lexes`; `Lexes.cases` reads off the first token.
- **The loops.** `skipWhite_run`, `scanWord_run`.
- **One call.** `gettoken_end`, `gettoken_symbol`, `gettoken_word`.
- **All calls.** `Holds`: a word in the array; `Delivers`, `RunsFrom`, `runs_lexes`.
- **The tokens.** `lexes_exists`, `Lexes.unique`.
-/

namespace Ucore.Sh

/-! ## The grammar -/

/-- White space and symbols end a word. -/
def Separates (ch : UInt8) : Prop := ch ∈ whitespace ∨ ch ∈ symbols

abbrev quote : UInt8 := '"'.toUInt8

/-- The quotes of a word are replaced by blanks. -/
def unquote (ch : UInt8) : UInt8 := if ch = quote then ' '.toUInt8 else ch

/-- `w` is a word in front of `rest`: separators stand only behind an odd number of quotes, and it goes on until one stands
    behind an even number. -/
structure IsWord (w rest : List UInt8) : Prop where
  ne_nil : w ≠ []
  inside : ∀ pre ch post, w = pre ++ ch :: post → Separates ch → pre.count quote % 2 = 1
  maximal : ∀ ch post, rest = ch :: post → Separates ch ∧ w.count quote % 2 = 0

inductive Token where
  | symbol (ch : UInt8)
  | word (text : List UInt8)

/-- The tokens of a string -/
inductive Lexes : List UInt8 → List Token → Prop where
  | nil : Lexes [] []
  | white {ch cs ts} (h : ch ∈ whitespace) (hrest : Lexes cs ts) : Lexes (ch :: cs) ts
  | symbol {ch cs ts} (h : ch ∈ symbols) (hrest : Lexes cs ts) : Lexes (ch :: cs) (.symbol ch :: ts)
  | word {w rest ts} (h : IsWord w rest) (hrest : Lexes rest ts) : Lexes (w ++ rest) (.word (w.map unquote) :: ts)

/-- What `gettoken` returns for a token -/
def Token.code : Token → UInt8
  | .symbol ch => ch
  | .word _    => 'w'.toUInt8

theorem white_ne_symbol : ∀ ch ∈ whitespace, ch ∉ symbols := by decide +kernel

theorem IsWord.head {ch : UInt8} {w rest : List UInt8} (h : IsWord (ch :: w) rest) : ¬ Separates ch := fun hs =>
  absurd (h.inside [] ch w rfl hs) (by decide)

/-- White space first, and then nothing, a symbol or a word. -/
theorem Lexes.cases {cs : List UInt8} {ts : List Token} (h : Lexes cs ts) : ∃ ws rest, cs = ws ++ rest ∧
    (∀ ch ∈ ws, ch ∈ whitespace) ∧
    (rest = [] ∧ ts = [] ∨
      (∃ ch rest' ts', rest = ch :: rest' ∧ ts = .symbol ch :: ts' ∧ ch ∈ symbols ∧ Lexes rest' ts') ∨
      ∃ w rest' ts', rest = w ++ rest' ∧ ts = .word (w.map unquote) :: ts' ∧ IsWord w rest' ∧ Lexes rest' ts') := by
  induction h with
  | nil => exact ⟨[], [], rfl, by simp, .inl ⟨rfl, rfl⟩⟩
  | @white ch cs ts h _ ih =>
    obtain ⟨ws, rest, rfl, hws, hrest⟩ := ih
    refine ⟨ch :: ws, rest, rfl, fun c hc => ?_, hrest⟩
    rcases List.mem_cons.mp hc with rfl | hc
    · exact h
    · exact hws c hc
  | @symbol ch cs ts h hrest => exact ⟨[], ch :: cs, rfl, by simp, .inr (.inl ⟨ch, cs, ts, rfl, rfl, h, hrest⟩)⟩
  | @word w rest ts h hrest => exact ⟨[], w ++ rest, rfl, by simp, .inr (.inr ⟨w, rest, ts, rfl, rfl, h, hrest⟩)⟩

/-! ## The loops -/

variable {pre post : List UInt8} {ch d : UInt8} {fuel : Nat}

theorem readAt_here (pre : List UInt8) (ch : UInt8) (post : List UInt8) : readAt (pre ++ ch :: post) pre.length = .ok ch := by
  unfold readAt
  rw [List.getElem?_append_right (Nat.le_refl _), Nat.sub_self]
  rfl

theorem writeAt_here (pre : List UInt8) (ch : UInt8) (post : List UInt8) (c : UInt8) :
    writeAt (pre ++ ch :: post) pre.length c = .ok (pre ++ c :: post) := by
  unfold writeAt
  rw [if_pos (by simp), List.set_append_right _ _ (Nat.le_refl _), Nat.sub_self]
  rfl

/-- White space becomes NULs, up to the first other character. -/
theorem skipWhite_run {ws : List UInt8} (hws : ∀ ch ∈ ws, ch ∈ whitespace) (hd : d ∉ whitespace) (hfuel : ws.length < fuel) :
    skipWhite fuel (pre ++ (ws ++ d :: post)) pre.length =
      .ok (pre ++ (List.replicate ws.length 0 ++ d :: post), pre.length + ws.length) := by
  induction ws generalizing pre fuel with
  | nil =>
    obtain ⟨fuel, rfl⟩ := Nat.exists_eq_add_of_lt hfuel
    unfold skipWhite
    rw [List.nil_append, readAt_here]
    exact if_neg (not_not.mpr (strchr_eq_none.mpr hd))
  | cons c ws ih =>
    cases fuel with
    | zero => omega
    | succ fuel =>
      rw [List.length_cons] at hfuel
      have hc : strchr whitespace c ≠ none := fun h => strchr_eq_none.mp h (hws c List.mem_cons_self)
      have hrest := @ih (pre ++ [0]) fuel (fun c' hc' => hws c' (List.mem_cons_of_mem c hc')) (by omega)
      rw [List.length_append, List.length_singleton, List.append_assoc, List.append_assoc] at hrest
      have hplace : pre.length + (c :: ws).length = pre.length + 1 + ws.length := by
        rw [List.length_cons]
        omega
      unfold skipWhite
      rw [List.cons_append, readAt_here, hplace, List.length_cons, List.replicate_succ]
      refine (if_pos hc).trans ?_
      rw [writeAt_here]
      exact hrest

/-- What `scanWord` goes over, with `n` quotes in front of it: separators only behind an odd number of quotes. -/
def Inside (n : Nat) (w : List UInt8) : Prop :=
  ∀ pre ch post, w = pre ++ ch :: post → Separates ch → (n + pre.count quote) % 2 = 1

theorem Inside.tail {n : Nat} {w : List UInt8} (h : Inside n (ch :: w)) : Inside (n + [ch].count quote) w := by
  intro pre c post heq hs
  have := h (ch :: pre) c post (by rw [heq, List.cons_append]) hs
  rwa [← List.singleton_append, List.count_append, ← Nat.add_assoc] at this

theorem strchr_separates : strchr (whitespace ++ symbols) ch = none ↔ ¬ Separates ch := by
  rw [strchr_eq_none, List.mem_append]
  rfl

/-- A word ends at the NUL, or at a separator behind an even number of quotes; the quotes become blanks. -/
theorem scanWord_run {n : Nat} {w : List UInt8} (hw : ∀ ch ∈ w, ch ≠ 0) (hin : Inside n w)
    (hd : d = 0 ∨ Separates d ∧ (n + w.count quote) % 2 = 0) (hfuel : w.length < fuel) :
    scanWord fuel (pre ++ (w ++ d :: post)) pre.length (decide (n % 2 = 1)) =
      .ok (pre ++ (w.map unquote ++ d :: post), pre.length + w.length) := by
  induction w generalizing pre n fuel with
  | nil =>
    obtain ⟨fuel, rfl⟩ := Nat.exists_eq_add_of_lt hfuel
    unfold scanWord
    rw [List.nil_append, readAt_here]
    refine if_neg ?_
    rintro ⟨hne, hflag | hno⟩
    · obtain h0 | ⟨-, heven⟩ := hd
      · exact hne h0
      · rw [List.count_nil] at heven
        have := of_decide_eq_true hflag
        omega
    · obtain h0 | ⟨hs, -⟩ := hd
      · exact hne h0
      · exact strchr_separates.mp hno hs
  | cons c w ih =>
    cases fuel with
    | zero => omega
    | succ fuel =>
      rw [List.length_cons] at hfuel
      have hgo : c ≠ 0 ∧ (decide (n % 2 = 1) = true ∨ strchr (whitespace ++ symbols) c = none) := by
        refine ⟨hw c List.mem_cons_self, ?_⟩
        by_cases hs : Separates c
        · exact .inl (decide_eq_true (hin [] c w rfl hs))
        · exact .inr (strchr_separates.mpr hs)
      have hcount : (c :: w).count quote = [c].count quote + w.count quote := by
        rw [← List.singleton_append, List.count_append]
      have hrest := fun x => @ih (pre ++ [x]) fuel (n + [c].count quote)
        (fun c' hc' => hw c' (List.mem_cons_of_mem c hc')) hin.tail (by rwa [hcount, ← Nat.add_assoc] at hd) (by omega)
      have hplace : pre.length + (c :: w).length = pre.length + 1 + w.length := by
        rw [List.length_cons]
        omega
      simp only [List.length_append, List.length_singleton, List.append_assoc, List.singleton_append] at hrest
      unfold scanWord
      rw [List.cons_append, readAt_here, hplace, List.map_cons]
      refine (if_pos hgo).trans ?_
      by_cases hq : c = quote
      · -- the flag is toggled
        subst hq
        have hflag : (!decide (n % 2 = 1)) = decide ((n + [quote].count quote) % 2 = 1) := by
          have hone : [quote].count quote = 1 := by decide
          rw [hone, Bool.eq_iff_iff, Bool.not_eq_true', decide_eq_false_iff_not, decide_eq_true_eq]
          omega
        rw [if_pos rfl, writeAt_here, hflag]
        exact hrest ' '.toUInt8
      · have hflag : n + [c].count quote = n := by
          rw [List.count_eq_zero.mpr (by simpa using Ne.symm hq), Nat.add_zero]
        have hc : unquote c = c := if_neg hq
        rw [if_neg hq, hc]
        rw [hflag] at hrest
        exact hrest c

/-! ## One call -/

variable {cs rest w ws : List UInt8}

/-- `*p1`, with `rest` from the place on: it is not kept at the end of the command. -/
def placeOf (s : Nat) (rest : List UInt8) : Option Nat := if rest = [] then none else some s

theorem readAt_rest (hrest : ∀ ch ∈ rest, ch ≠ 0) : ∃ last, readAt (pre ++ (rest ++ [0])) pre.length = .ok last ∧
    (if last ≠ 0 then some pre.length else none) = placeOf pre.length rest := by
  cases rest with
  | nil => exact ⟨0, readAt_here pre 0 [], rfl⟩
  | cons ch rest =>
    refine ⟨ch, by rw [List.cons_append]; exact readAt_here pre ch (rest ++ [0]), ?_⟩
    rw [if_pos (hrest ch List.mem_cons_self), placeOf, if_neg (List.cons_ne_nil ch rest)]

/-- Nothing is left but white space. -/
theorem gettoken_end (hws : ∀ ch ∈ ws, ch ∈ whitespace) (hfuel : ws.length < fuel) :
    gettoken fuel (pre ++ (ws ++ [0])) (some pre.length) =
      .ok { token := 0, p1 := some pre.length, p2 := none, mem := pre ++ (List.replicate ws.length 0 ++ [0]) } := by
  have hread : readAt (pre ++ (List.replicate ws.length 0 ++ [0])) (pre.length + ws.length) = .ok 0 := by
    have h := readAt_here (pre ++ List.replicate ws.length 0) 0 []
    rwa [List.length_append, List.length_replicate, List.append_assoc] at h
  have hskip := @skipWhite_run pre [] 0 fuel ws hws (by decide) hfuel
  simp only [gettoken, hskip, bind, Except.bind, hread, if_true]

/-- What is returned for a symbol behind white space: it is overwritten with a NUL. -/
def gotSymbol (pre ws : List UInt8) (ch : UInt8) (rest : List UInt8) : Got where
  token := ch
  p1 := placeOf (pre ++ List.replicate ws.length 0 ++ [0]).length rest
  p2 := some (pre.length + ws.length)
  mem := (pre ++ List.replicate ws.length 0 ++ [0]) ++ (rest ++ [0])

/-- What is returned for a word, which is left with its quotes replaced. -/
def gotWord (pre ws w rest : List UInt8) : Got where
  token := 'w'.toUInt8
  p1 := placeOf (pre ++ List.replicate ws.length 0 ++ w.map unquote).length rest
  p2 := some (pre.length + ws.length)
  mem := (pre ++ List.replicate ws.length 0 ++ w.map unquote) ++ (rest ++ [0])

theorem gettoken_symbol (hws : ∀ ch ∈ ws, ch ∈ whitespace) (hch : ch ∈ symbols) (hrest : ∀ ch ∈ rest, ch ≠ 0)
    (hfuel : ws.length < fuel) :
    gettoken fuel (pre ++ (ws ++ ch :: (rest ++ [0]))) (some pre.length) = .ok (gotSymbol pre ws ch rest) := by
  have hwhite : ch ∉ whitespace := fun h => white_ne_symbol ch h hch
  have hne : ch ≠ 0 := by
    rintro rfl
    exact absurd hch (by decide)
  have hsym : strchr symbols ch ≠ none := fun h => strchr_eq_none.mp h hch
  have hread := readAt_here (pre ++ List.replicate ws.length 0) ch (rest ++ [0])
  have hwrite := writeAt_here (pre ++ List.replicate ws.length 0) ch (rest ++ [0]) 0
  rw [List.length_append, List.length_replicate, List.append_assoc] at hread hwrite
  obtain ⟨last, hlast, hplace⟩ := @readAt_rest (pre ++ List.replicate ws.length 0 ++ [0]) rest hrest
  have hlen : (pre ++ List.replicate ws.length 0 ++ [0]).length = pre.length + ws.length + 1 := by
    simp [Nat.add_assoc]
  have hmem : pre ++ List.replicate ws.length 0 ++ 0 :: (rest ++ [0]) = pre ++ List.replicate ws.length 0 ++ [0] ++ (rest ++ [0]) := by
    simp
  unfold gotSymbol
  rw [hlen] at hlast hplace ⊢
  simp only [gettoken, skipWhite_run hws hwhite hfuel, bind, Except.bind, hread, if_neg hne, if_pos hsym, hwrite, hmem, hlast,
    hplace]

theorem gettoken_word (hws : ∀ ch ∈ ws, ch ∈ whitespace) (hw : IsWord w rest) (hne : ∀ ch ∈ w ++ rest, ch ≠ 0)
    (hfuel : ws.length + w.length < fuel) :
    gettoken fuel (pre ++ (ws ++ (w ++ (rest ++ [0])))) (some pre.length) = .ok (gotWord pre ws w rest) := by
  obtain ⟨c, w', rfl⟩ := List.exists_cons_of_ne_nil hw.ne_nil
  have hhead : ¬ Separates c := hw.head
  have hwhite : c ∉ whitespace := fun h => hhead (.inl h)
  have hsym : strchr symbols c = none := strchr_eq_none.mpr fun h => hhead (.inr h)
  have hc : c ≠ 0 := hne c (List.mem_append_left rest List.mem_cons_self)
  have hread := readAt_here (pre ++ List.replicate ws.length 0) c (w' ++ (rest ++ [0]))
  rw [List.length_append, List.length_replicate, List.append_assoc] at hread
  -- the word ends where the rest begins, or at the NUL
  obtain ⟨d, post, hpost, hd⟩ : ∃ d post, rest ++ [0] = d :: post ∧ (d = 0 ∨ Separates d ∧ (0 + (c :: w').count quote) % 2 = 0) := by
    cases rest with
    | nil => exact ⟨0, [], rfl, .inl rfl⟩
    | cons d rest =>
      refine ⟨d, rest ++ [0], rfl, .inr ?_⟩
      rw [Nat.zero_add]
      exact hw.maximal d rest rfl
  have hin : Inside 0 (c :: w') := by
    intro p ch q heq hs
    rw [Nat.zero_add]
    exact hw.inside p ch q heq hs
  have hscan := @scanWord_run (pre ++ List.replicate ws.length 0) post d fuel 0 _
    (fun ch hch => hne ch (List.mem_append_left rest hch)) hin hd (by omega)
  rw [← hpost] at hscan
  obtain ⟨last, hlast, hplace⟩ := @readAt_rest (pre ++ List.replicate ws.length 0 ++ (c :: w').map unquote) rest
    fun ch hch => hne ch (List.mem_append_right _ hch)
  have hlen : (pre ++ List.replicate ws.length 0 ++ (c :: w').map unquote).length =
      (pre ++ List.replicate ws.length 0).length + (c :: w').length := by rw [List.length_append, List.length_map]
  have hlen0 : (pre ++ List.replicate ws.length 0).length = pre.length + ws.length := by simp
  have hflag : decide (0 % 2 = 1) = false := by decide
  unfold gotWord
  rw [hlen] at hlast hplace ⊢
  have hcons : c :: w' ++ (rest ++ [0]) = c :: (w' ++ (rest ++ [0])) := List.cons_append
  rw [hflag, ← List.append_assoc _ ((c :: w').map unquote), hcons, List.append_assoc pre, hlen0] at hscan
  rw [hlen0] at hlast hplace ⊢
  rw [hcons]
  simp only [gettoken, skipWhite_run hws hwhite (by omega : ws.length < fuel), bind, Except.bind, hread, if_neg hc, hsym, ne_eq,
    not_true_eq_false, if_false, hscan, hlast, hplace]

/-! ## All calls -/

/-- The word `w` is in the array, from the place `p` on. -/
def Holds (mem : List UInt8) (p : Nat) (w : List UInt8) : Prop := ∃ a b, mem = a ++ (w ++ b) ∧ a.length = p

/-- The calls that follow one another return, with more fuel than `n`, and give the tokens and then 0. The text of a word is at
    `*p2` from its call on, and the NUL behind it from the next. -/
structure Delivers (n : Nat) (mem : List UInt8) (p1 : Option Nat) (ts : List Token) (r : Nat → Got) : Prop where
  calls : ∀ fuel, n < fuel → ∀ k, calls fuel k mem p1 = .ok (r k)
  token : ∀ k t, ts[k]? = some t → (r k).token = t.code
  finish : ∀ k, ts.length ≤ k → (r k).token = 0
  word : ∀ k w, ts[k]? = some (.word w) → ∃ p, (r k).p2 = some p ∧ (∀ j, k ≤ j → Holds (r j).mem p w) ∧
    ∀ j, k < j → (r j).mem[p + w.length]? = some 0

/-- At the end nothing is written any more. -/
theorem calls_done {mem : List UInt8} {p1 : Option Nat} (h : p1 = none ∨ ∃ s, p1 = some s ∧ mem[s]? = some 0)
    (hfuel : 0 < fuel) (k : Nat) : calls fuel k mem p1 = .ok { token := 0, p1 := p1, p2 := none, mem := mem } := by
  have hone : gettoken fuel mem p1 = .ok { token := 0, p1 := p1, p2 := none, mem := mem } := by
    rcases h with rfl | ⟨s, rfl, hs⟩
    · rfl
    · obtain ⟨fuel, rfl⟩ := Nat.exists_eq_add_of_lt hfuel
      have hread : readAt mem s = .ok 0 := by rw [readAt, hs]
      have hzero : strchr whitespace 0 = none := by decide
      simp [gettoken, skipWhite, bind, Except.bind, hread, hzero]
  induction k with
  | zero => exact hone
  | succ k ih =>
    rw [calls, hone]
    exact ih

/-- The first call, and then the others. -/
def precede (r₀ : Got) (r : Nat → Got) : Nat → Got
  | 0     => r₀
  | k + 1 => r k

theorem Delivers.cons {n : Nat} {mem : List UInt8} {p1 : Option Nat} {t : Token} {ts : List Token} {r₀ : Got} {r : Nat → Got}
    (h : Delivers n r₀.mem r₀.p1 ts r) (h₀ : ∀ fuel, n < fuel → gettoken fuel mem p1 = .ok r₀) (ht : r₀.token = t.code)
    (hw : ∀ w, t = .word w → ∃ p, r₀.p2 = some p ∧ (∀ j, Holds (precede r₀ r j).mem p w) ∧
      ∀ j, (r j).mem[p + w.length]? = some 0) : Delivers n mem p1 (t :: ts) (precede r₀ r) where
  calls := by
    intro fuel hfuel k
    cases k with
    | zero => exact h₀ fuel hfuel
    | succ k =>
      rw [Sh.calls, h₀ fuel hfuel]
      exact h.calls fuel hfuel k
  token := by
    intro k t' hk
    cases k with
    | zero =>
      obtain rfl : t = t' := Option.some.inj hk
      exact ht
    | succ k => exact h.token k t' hk
  finish := by
    intro k hk
    rw [List.length_cons] at hk
    cases k with
    | zero => omega
    | succ k => exact h.finish k (by omega)
  word := by
    intro k w hk
    cases k with
    | zero =>
      obtain ⟨p, hp, hhold, hnul⟩ := hw w (Option.some.inj hk)
      refine ⟨p, hp, fun j _ => hhold j, fun j hj => ?_⟩
      cases j with
      | zero => omega
      | succ j => exact hnul j
    | succ k =>
      obtain ⟨p, hp, hhold, hnul⟩ := h.word k w hk
      refine ⟨p, hp, fun j hj => ?_, fun j hj => ?_⟩
      · cases j with
        | zero => omega
        | succ j => exact hhold j (by omega)
      · cases j with
        | zero => omega
        | succ j => exact hnul j (by omega)

theorem Delivers.mono {n n' : Nat} {mem : List UInt8} {p1 : Option Nat} {ts : List Token} {r : Nat → Got}
    (h : Delivers n mem p1 ts r) (hn : n ≤ n') : Delivers n' mem p1 ts r :=
  { h with calls := fun fuel hfuel => h.calls fuel (by omega) }

theorem getElem?_here (pre : List UInt8) (ch : UInt8) (post : List UInt8) : (pre ++ ch :: post)[pre.length]? = some ch := by
  rw [List.getElem?_append_right (Nat.le_refl _), Nat.sub_self]
  rfl

/-- Behind `pre` there are NULs, `n` of them, and one more. -/
theorem getElem?_zeros (pre : List UInt8) (n : Nat) (post : List UInt8) :
    (pre ++ (List.replicate n 0 ++ 0 :: post))[pre.length]? = some 0 := by
  cases n with
  | zero => exact getElem?_here pre 0 post
  | succ n =>
    rw [List.replicate_succ, List.cons_append]
    exact getElem?_here pre 0 _

/-- The calls from a place on: they give the tokens of what stands there and leave what is in front as it is, and a separator
    at the place becomes a NUL with the first of them. -/
structure RunsFrom (pre cs : List UInt8) (p1 : Option Nat) (ts : List Token) (r : Nat → Got) : Prop where
  delivers : Delivers cs.length (pre ++ (cs ++ [0])) p1 ts r
  frame : ∀ j, ∃ tail, (r j).mem = pre ++ tail
  nul : (∀ ch post, cs = ch :: post → Separates ch) → ∀ j, (r j).mem[pre.length]? = some 0

variable {ts : List Token} {p1 : Option Nat}

/-- When all calls return the same, there is no token. -/
theorem delivers_nil {n : Nat} {mem : List UInt8} {r₀ : Got} (h0 : r₀.token = 0)
    (h : ∀ fuel, n < fuel → ∀ k, calls fuel k mem p1 = .ok r₀) : Delivers n mem p1 [] fun _ => r₀ where
  calls := h
  token := by simp
  finish := fun _ _ => h0
  word := by simp

theorem runs_end (hws : ∀ ch ∈ ws, ch ∈ whitespace) (hp1 : p1 = some pre.length ∨ p1 = none ∧ ws = []) :
    ∃ r, RunsFrom pre ws p1 [] r := by
  rcases hp1 with rfl | ⟨rfl, rfl⟩
  · have hzero := getElem?_zeros pre ws.length []
    refine ⟨fun _ => { token := 0, p1 := some pre.length, p2 := none, mem := pre ++ (List.replicate ws.length 0 ++ [0]) },
      delivers_nil rfl fun fuel hfuel k => ?_, fun _ => ⟨_, rfl⟩, fun _ _ => hzero⟩
    have hfirst := @gettoken_end pre _ _ hws hfuel
    cases k with
    | zero => exact hfirst
    | succ k =>
      rw [calls, hfirst]
      exact calls_done (.inr ⟨_, rfl, hzero⟩) (by omega) k
  · exact ⟨_, delivers_nil rfl fun fuel hfuel k => calls_done (.inl rfl) (by omega) k, fun _ => ⟨_, rfl⟩,
      fun _ _ => getElem?_here pre 0 []⟩

theorem placeOf_cases (s : Nat) (rest : List UInt8) : placeOf s rest = some s ∨ placeOf s rest = none ∧ rest = [] := by
  unfold placeOf
  split
  · next h => exact .inr ⟨rfl, h⟩
  · exact .inl rfl

theorem precede_frame {pre : List UInt8} {r₀ : Got} {r : Nat → Got} (h₀ : ∃ tail, r₀.mem = pre ++ tail)
    (h : ∀ j, ∃ tail, (r j).mem = pre ++ tail) : ∀ j, ∃ tail, (precede r₀ r j).mem = pre ++ tail
  | 0     => h₀
  | j + 1 => h j

theorem runs_symbol {r : Nat → Got} (hws : ∀ ch ∈ ws, ch ∈ whitespace) (hch : ch ∈ symbols) (hne : ∀ ch ∈ rest, ch ≠ 0)
    (h : RunsFrom (pre ++ List.replicate ws.length 0 ++ [0]) rest
      (placeOf (pre ++ List.replicate ws.length 0 ++ [0]).length rest) ts r) :
    ∃ r, RunsFrom pre (ws ++ ch :: rest) (some pre.length) (.symbol ch :: ts) r := by
  have hlen : (ws ++ ch :: rest).length = ws.length + (rest.length + 1) := by simp
  have hframe := @precede_frame _ (gotSymbol pre ws ch rest) r ⟨_, rfl⟩ h.frame
  refine ⟨precede (gotSymbol pre ws ch rest) r, (h.delivers.mono (by omega)).cons (fun fuel hfuel => ?_) rfl ?_, fun j => ?_, fun _ j => ?_⟩
  · have := @gettoken_symbol pre _ fuel _ _ hws hch hne (by omega)
    rwa [List.append_assoc ws, List.cons_append]
  · rintro w ⟨⟩
  · obtain ⟨tail, htail⟩ := hframe j
    exact ⟨_, by rw [htail, List.append_assoc, List.append_assoc]⟩
  · obtain ⟨tail, htail⟩ := hframe j
    rw [htail, List.append_assoc, List.append_assoc]
    exact getElem?_zeros pre ws.length tail

theorem runs_word {r : Nat → Got} (hws : ∀ ch ∈ ws, ch ∈ whitespace) (hw : IsWord w rest) (hne : ∀ ch ∈ w ++ rest, ch ≠ 0)
    (h : RunsFrom (pre ++ List.replicate ws.length 0 ++ w.map unquote) rest
      (placeOf (pre ++ List.replicate ws.length 0 ++ w.map unquote).length rest) ts r) :
    ∃ r, RunsFrom pre (ws ++ (w ++ rest)) (some pre.length) (.word (w.map unquote) :: ts) r := by
  have hlen : (ws ++ (w ++ rest)).length = ws.length + (w.length + rest.length) := by simp
  have hframe := @precede_frame _ (gotWord pre ws w rest) r ⟨_, rfl⟩ h.frame
  refine ⟨precede (gotWord pre ws w rest) r, (h.delivers.mono (by omega)).cons (fun fuel hfuel => ?_) rfl ?_, fun j => ?_, fun hsep j => ?_⟩
  · have := @gettoken_word pre fuel _ _ _ hws hw hne (by omega)
    rwa [List.append_assoc ws, List.append_assoc w]
  · rintro _ ⟨⟩
    refine ⟨_, rfl, fun j => ?_, fun j => ?_⟩
    · obtain ⟨tail, htail⟩ := hframe j
      exact ⟨pre ++ List.replicate ws.length 0, tail, by rw [htail, List.append_assoc], by simp⟩
    · -- behind the word stands a separator or the NUL of the command
      have hnul := h.nul (fun ch post hrest => (hw.maximal ch post hrest).1) j
      rwa [List.length_append, List.length_append, List.length_replicate] at hnul
  · obtain ⟨tail, htail⟩ := hframe j
    exact ⟨_, by rw [htail, List.append_assoc, List.append_assoc]⟩
  · obtain ⟨tail, htail⟩ := hframe j
    -- in front of a word there is white space, if there is a separator at all
    obtain ⟨c, w', rfl⟩ := List.exists_cons_of_ne_nil hw.ne_nil
    cases ws with
    | nil => exact absurd (hsep c (w' ++ rest) rfl) hw.head
    | cons ch ws =>
      rw [htail, List.append_assoc, List.append_assoc, List.length_cons, List.replicate_succ, List.cons_append]
      exact getElem?_here pre 0 _

/-- **The run.** -/
theorem runs_lexes : ∀ {pre cs : List UInt8} {p1 : Option Nat}, Lexes cs ts → (∀ ch ∈ cs, ch ≠ 0) →
    p1 = some pre.length ∨ p1 = none ∧ cs = [] → ∃ r, RunsFrom pre cs p1 ts r := by
  induction ts with
  | nil =>
    intro pre cs p1 hlex hne hp1
    obtain ⟨ws, rest, rfl, hws, ⟨rfl, -⟩ | ⟨ch, rest, ts, -, hts, -⟩ | ⟨w, rest, ts, -, hts, -⟩⟩ := hlex.cases
    · rw [List.append_nil] at hp1 ⊢
      exact runs_end hws hp1
    · exact absurd hts.symm (List.cons_ne_nil _ _)
    · exact absurd hts.symm (List.cons_ne_nil _ _)
  | cons t ts ih =>
    intro pre cs p1 hlex hne hp1
    obtain ⟨ws, rest, rfl, hws, ⟨-, hts⟩ | ⟨ch, rest, ts', rfl, hts, hch, hrest⟩ | ⟨w, rest, ts', rfl, hts, hw, hrest⟩⟩ :=
      hlex.cases
    · exact absurd hts (List.cons_ne_nil _ _)
    · obtain ⟨rfl, rfl⟩ := List.cons.inj hts
      obtain rfl : p1 = some pre.length := hp1.resolve_right fun h => by simp at h
      have hne' : ∀ ch ∈ rest, ch ≠ 0 := fun c hc => hne c (by simp [hc])
      obtain ⟨r, hr⟩ := ih hrest hne' (placeOf_cases (pre ++ List.replicate ws.length 0 ++ [0]).length rest)
      exact runs_symbol hws hch hne' hr
    · obtain ⟨rfl, rfl⟩ := List.cons.inj hts
      have hnil := hw.ne_nil
      obtain rfl : p1 = some pre.length := hp1.resolve_right fun h => by simp [hnil] at h
      have hne' : ∀ ch ∈ w ++ rest, ch ≠ 0 := fun c hc => hne c (List.mem_append_right ws hc)
      obtain ⟨r, hr⟩ := ih hrest (fun c hc => hne' c (List.mem_append_right w hc))
        (placeOf_cases (pre ++ List.replicate ws.length 0 ++ w.map unquote).length rest)
      exact runs_word hws hw hne' hr

/-! ## Every command has its tokens -/

instance : DecidablePred Separates := fun ch => inferInstanceAs (Decidable (ch ∈ whitespace ∨ ch ∈ symbols))

/-- The longest start of a string in which separators stand only behind an odd number of quotes, `n` being in front. -/
theorem inside_exists (cs : List UInt8) : ∀ n, ∃ w rest, cs = w ++ rest ∧ Inside n w ∧
    ∀ ch post, rest = ch :: post → Separates ch ∧ (n + w.count quote) % 2 = 0 := by
  induction cs with
  | nil => exact fun n => ⟨[], [], rfl, fun pre ch post h => by simp at h, fun ch post h => by simp at h⟩
  | cons c cs ih =>
    intro n
    by_cases hstop : Separates c ∧ n % 2 = 0
    · refine ⟨[], c :: cs, rfl, fun pre ch post h => by simp at h, fun ch post h => ?_⟩
      obtain ⟨rfl, rfl⟩ := List.cons.inj h
      exact hstop
    · obtain ⟨w, rest, rfl, hin, hend⟩ := ih (n + [c].count quote)
      have hcount : (c :: w).count quote = [c].count quote + w.count quote := by
        rw [← List.singleton_append, List.count_append]
      refine ⟨c :: w, rest, rfl, fun pre ch post h hs => ?_, fun ch post h => ?_⟩
      · cases pre with
        | nil =>
          obtain ⟨rfl, rfl⟩ := List.cons.inj h
          have hodd : ¬ n % 2 = 0 := fun heven => hstop ⟨hs, heven⟩
          rw [List.count_nil]
          omega
        | cons c' pre =>
          obtain ⟨rfl, rfl⟩ := List.cons.inj h
          have := hin pre ch post rfl hs
          rwa [← List.singleton_append, List.count_append, ← Nat.add_assoc]
      · rw [hcount, ← Nat.add_assoc]
        exact hend ch post h

theorem lexes_exists (cs : List UInt8) : ∃ ts, Lexes cs ts := by
  induction hn : cs.length using Nat.strongRecOn generalizing cs with
  | _ n ih =>
    cases cs with
    | nil => exact ⟨[], .nil⟩
    | cons c cs =>
      rw [List.length_cons] at hn
      by_cases hwhite : c ∈ whitespace
      · obtain ⟨ts, hts⟩ := ih cs.length (by omega) cs rfl
        exact ⟨ts, .white hwhite hts⟩
      · by_cases hsym : c ∈ symbols
        · obtain ⟨ts, hts⟩ := ih cs.length (by omega) cs rfl
          exact ⟨_, .symbol hsym hts⟩
        · obtain ⟨w, rest, hsplit, hin, hend⟩ := inside_exists (c :: cs) 0
          simp only [Nat.zero_add] at hend
          have hnil : w ≠ [] := by
            rintro rfl
            exact (hend c cs (by rw [hsplit]; rfl)).1.elim hwhite hsym
          have hword : IsWord w rest := ⟨hnil, fun pre ch post h hs => by simpa using hin pre ch post h hs, hend⟩
          have hlen : (c :: cs).length = w.length + rest.length := by rw [hsplit, List.length_append]
          have hpos := List.length_pos_iff.mpr hnil
          rw [List.length_cons] at hlen
          obtain ⟨ts, hts⟩ := ih rest.length (by omega) rest rfl
          exact ⟨_, by rw [hsplit]; exact .word hword hts⟩

/-! ## and no others -/

theorem Separates.of_white (h : ch ∈ whitespace) : Separates ch := .inl h

theorem Separates.of_symbol (h : ch ∈ symbols) : Separates ch := .inr h

/-- A word does not begin with a separator. -/
theorem IsWord.append_ne {rest' : List UInt8} (h : IsWord w rest) (hc : Separates ch) : w ++ rest ≠ ch :: rest' := by
  intro heq
  obtain ⟨c, w', rfl⟩ := List.exists_cons_of_ne_nil h.ne_nil
  obtain ⟨rfl, -⟩ := List.cons.inj heq
  exact h.head hc

/-- Of two words at one place, neither goes on behind the other. -/
theorem IsWord.not_longer {u rest' : List UInt8} (h : IsWord w (ch :: u ++ rest')) : ¬ IsWord (w ++ ch :: u) rest' := by
  intro h'
  obtain ⟨hsep, heven⟩ := h.maximal ch (u ++ rest') rfl
  have hodd := h'.inside w ch u rfl hsep
  omega

theorem IsWord.unique {w' rest' : List UInt8} (h : IsWord w rest) (h' : IsWord w' rest') (heq : w ++ rest = w' ++ rest') :
    w = w' ∧ rest = rest' := by
  rcases List.append_eq_append_iff.mp heq with ⟨u, rfl, rfl⟩ | ⟨u, rfl, rfl⟩
  · cases u with
    | nil => exact ⟨(List.append_nil w).symm, rfl⟩
    | cons ch u => exact absurd h' h.not_longer
  · cases u with
    | nil => exact ⟨List.append_nil w', rfl⟩
    | cons ch u => exact absurd h h'.not_longer

/-- The first token of a string, and what comes behind it. -/
theorem Lexes.inv (h : Lexes cs ts) : cs = [] ∧ ts = [] ∨
    (∃ ch cs', cs = ch :: cs' ∧ ch ∈ whitespace ∧ Lexes cs' ts) ∨
    (∃ ch cs' ts', cs = ch :: cs' ∧ ts = .symbol ch :: ts' ∧ ch ∈ symbols ∧ Lexes cs' ts') ∨
    ∃ w rest ts', cs = w ++ rest ∧ ts = .word (w.map unquote) :: ts' ∧ IsWord w rest ∧ Lexes rest ts' := by
  cases h with
  | nil => exact .inl ⟨rfl, rfl⟩
  | white h hrest => exact .inr (.inl ⟨_, _, rfl, h, hrest⟩)
  | symbol h hrest => exact .inr (.inr (.inl ⟨_, _, _, rfl, rfl, h, hrest⟩))
  | word h hrest => exact .inr (.inr (.inr ⟨_, _, _, rfl, rfl, h, hrest⟩))

theorem Lexes.unique (h : Lexes cs ts) : ∀ {ts'}, Lexes cs ts' → ts' = ts := by
  induction h with
  | nil =>
    intro ts' h'
    rcases h'.inv with ⟨-, rfl⟩ | ⟨_, _, hcs, -⟩ | ⟨_, _, _, hcs, -⟩ | ⟨w, _, _, hcs, -, hw, -⟩
    · rfl
    · exact absurd hcs.symm (List.cons_ne_nil _ _)
    · exact absurd hcs.symm (List.cons_ne_nil _ _)
    · exact absurd (List.append_eq_nil_iff.mp hcs.symm).1 hw.ne_nil
  | @white ch cs ts hch _ ih =>
    intro ts' h'
    rcases h'.inv with ⟨hcs, -⟩ | ⟨_, _, hcs, -, hrest⟩ | ⟨_, _, _, hcs, -, hsym, -⟩ | ⟨w, _, _, hcs, -, hw, -⟩
    · exact absurd hcs (List.cons_ne_nil _ _)
    · obtain ⟨-, rfl⟩ := List.cons.inj hcs
      exact ih hrest
    · obtain ⟨rfl, -⟩ := List.cons.inj hcs
      exact absurd hsym (white_ne_symbol ch hch)
    · exact absurd hcs.symm (hw.append_ne (.of_white hch))
  | @symbol ch cs ts hch _ ih =>
    intro ts' h'
    rcases h'.inv with ⟨hcs, -⟩ | ⟨_, _, hcs, hwhite, -⟩ | ⟨_, _, _, hcs, rfl, -, hrest⟩ | ⟨w, _, _, hcs, -, hw, -⟩
    · exact absurd hcs (List.cons_ne_nil _ _)
    · obtain ⟨rfl, -⟩ := List.cons.inj hcs
      exact absurd hch (white_ne_symbol ch hwhite)
    · obtain ⟨rfl, rfl⟩ := List.cons.inj hcs
      rw [ih hrest]
    · exact absurd hcs.symm (hw.append_ne (.of_symbol hch))
  | @word w rest ts hw _ ih =>
    intro ts' h'
    rcases h'.inv with ⟨hcs, -⟩ | ⟨_, _, hcs, hwhite, -⟩ | ⟨_, _, _, hcs, -, hsym, -⟩ | ⟨_, _, _, hcs, rfl, hw', hrest⟩
    · exact absurd (List.append_eq_nil_iff.mp hcs).1 hw.ne_nil
    · exact absurd hcs (hw.append_ne (.of_white hwhite))
    · exact absurd hcs (hw.append_ne (.of_symbol hsym))
    · obtain ⟨rfl, rfl⟩ := hw.unique hw' hcs
      rw [ih hrest]

/-- **The tokens of a command.** Every command has exactly one list of tokens, and repeated calls of `gettoken` give these in
    order and then 0, with the text of each word in the array for as long as the calls go on, and read and write nothing outside
    the command. -/
theorem gettoken_lexes (cmd : CString) : ∃ ts r, (∀ ts', Lexes cmd.chars ts' ↔ ts' = ts) ∧
    Delivers cmd.chars.length (cmd.chars ++ [0]) (some 0) ts r := by
  obtain ⟨ts, hts⟩ := lexes_exists cmd.chars
  obtain ⟨r, hr⟩ := @runs_lexes _ [] _ _ hts cmd.ne_zero (.inl rfl)
  refine ⟨ts, r, fun ts' => ⟨fun h => hts.unique h, ?_⟩, hr.delivers⟩
  rintro rfl
  exact hts

end Ucore.Sh
