import Ucore.Driver.DeviceTree
import Mathlib.Data.List.Induction

/-!
# `Driver.Correctness.DtbMemory` — the scan of a device tree

Over a tree that is laid out in memory the scan meets the tree's events, one after the other (`Laid.scan`). What it returns is the
first `reg` with a node begun before it whose name starts with `memory` and no node ended in between (`FirstReg`). That is the
`reg` of the memory node unless such a name, or the end of a child, comes in its way.
-/

namespace Ucore.Dtb

/-- Behind these events the flag of the scan is set: a name that starts with `memory`, and since then no node's end. -/
def UnderMemory (es : List Event) : Prop := ∃ pre name post, es = pre ++ .begin name :: post ∧ memoryName <+: name ∧ Event.fin ∉ post

/-- `data` is the first `reg` of at least 16 bytes among the events that is met with the flag set. -/
def FirstReg (es : List Event) (data : List UInt8) : Prop := ∃ pre post, es = pre ++ .prop regName data :: post ∧
  16 ≤ data.length ∧ UnderMemory pre ∧
  ∀ pre' data' post', pre = pre' ++ .prop regName data' :: post' → 16 ≤ data'.length → ¬ UnderMemory pre'

variable {m : Bytes} {a b p q strings n : Nat} {str name data : List UInt8} {f : Forest} {flag : Bool} {es : List Event}

/-! ## Events -/

/-- The flag behind one event -/
def Event.step (flag : Bool) : Event → Bool
  | .begin name => flag || memoryName.isPrefixOf name
  | .fin        => false
  | .prop _ _   => flag

/-- The flag behind all of them -/
def flagAfter (flag : Bool) (es : List Event) : Bool := es.foldl Event.step flag

/-- No `reg` of at least 16 bytes is met with the flag set. -/
def Clean (flag : Bool) (es : List Event) : Prop :=
  ∀ pre data post, es = pre ++ .prop regName data :: post → 16 ≤ data.length → flagAfter flag pre = false

/-- The events up to the first `reg` that is met with the flag set: its data, or the flag behind them all -/
def follow : Bool → List Event → List UInt8 ⊕ Bool
  | flag, []                    => .inr flag
  | flag, .prop name data :: es => if flag = true ∧ name = regName ∧ 16 ≤ data.length then .inl data else follow flag es
  | flag, e :: es               => follow (e.step flag) es

theorem underMemory_snoc (e : Event) : UnderMemory (es ++ [e]) ↔ match e with
    | .begin name => memoryName <+: name ∨ UnderMemory es
    | .fin        => False
    | .prop _ _   => UnderMemory es := by
  have hlast : UnderMemory (es ++ [e]) ↔ (∃ name, e = .begin name ∧ memoryName <+: name) ∨ (e ≠ .fin ∧ UnderMemory es) := by
    constructor
    · rintro ⟨pre, name, post, heq, hname, hfin⟩
      rcases List.eq_nil_or_concat post with rfl | ⟨post, e', rfl⟩
      · obtain ⟨-, heq⟩ := List.append_inj' heq rfl
        exact .inl ⟨name, List.singleton_inj.mp heq, hname⟩
      · rw [List.concat_eq_append, ← List.cons_append, ← List.append_assoc] at heq
        obtain ⟨rfl, hsame⟩ := List.append_inj' heq rfl
        obtain rfl := List.singleton_inj.mp hsame
        rw [List.concat_eq_append, List.mem_append, not_or] at hfin
        exact .inr ⟨fun he => hfin.2 (he ▸ List.mem_singleton_self _), pre, name, post, rfl, hname, hfin.1⟩
    · rintro (⟨name, rfl, hname⟩ | ⟨hne, pre, name, post, rfl, hname, hfin⟩)
      · exact ⟨es, name, [], rfl, hname, List.not_mem_nil⟩
      · refine ⟨pre, name, post ++ [e], by rw [List.append_assoc, List.cons_append], hname, ?_⟩
        rw [List.mem_append, List.mem_singleton, not_or]
        exact ⟨hfin, hne.symm⟩
  rw [hlast]
  cases e <;> simp

theorem flagAfter_iff : flagAfter false es = true ↔ UnderMemory es := by
  induction es using List.reverseRecOn with
  | nil =>
    refine ⟨fun h => absurd h Bool.false_ne_true, ?_⟩
    rintro ⟨pre, name, post, heq, -⟩
    exact absurd heq (by simp)
  | append_singleton es e ih =>
    rw [underMemory_snoc, flagAfter, List.foldl_append]
    change e.step (flagAfter false es) = true ↔ _
    cases e with
    | begin name => rw [Event.step, Bool.or_eq_true, ih, List.isPrefixOf_iff_prefix, or_comm]
    | fin => exact ⟨fun h => absurd h Bool.false_ne_true, False.elim⟩
    | prop name data => exact ih

theorem Clean.nil : Clean flag [] := fun pre data post heq => absurd heq (by simp)

theorem clean_cons {e : Event} : Clean flag (e :: es) ↔
    ¬ (∃ data, e = .prop regName data ∧ 16 ≤ data.length ∧ flag = true) ∧ Clean (e.step flag) es := by
  constructor
  · intro h
    refine ⟨?_, fun pre data post heq hlen => h (e :: pre) data post (by rw [heq, List.cons_append]) hlen⟩
    rintro ⟨data, rfl, hlen, hflag⟩
    exact absurd hflag (Bool.eq_false_iff.mp (h [] data es rfl hlen))
  · rintro ⟨hhead, htail⟩ pre data post heq hlen
    cases pre with
    | nil =>
      obtain ⟨rfl, -⟩ := List.cons.inj heq
      exact Bool.eq_false_iff.mpr fun hflag => hhead ⟨data, rfl, hlen, hflag⟩
    | cons e' pre =>
      obtain ⟨rfl, hrest⟩ := List.cons.inj heq
      exact htail pre data post hrest hlen

theorem follow_append {es' : List Event} : follow flag (es ++ es') =
    match follow flag es with
    | .inl data => .inl data
    | .inr flag => follow flag es' := by
  induction es generalizing flag with
  | nil => rfl
  | cons e es ih =>
    cases e with
    | begin name => exact ih
    | fin => exact ih
    | prop name data =>
      simp only [List.cons_append, follow]
      split
      · rfl
      · exact ih

theorem Clean.follow (h : Clean flag es) : follow flag es = .inr (flagAfter flag es) := by
  induction es generalizing flag with
  | nil => rfl
  | cons e es ih =>
    obtain ⟨hhead, htail⟩ := clean_cons.mp h
    cases e with
    | begin name => exact ih htail
    | fin => exact ih htail
    | prop name data =>
      have hno : ¬ (flag = true ∧ name = regName ∧ 16 ≤ data.length) := by
        rintro ⟨hflag, rfl, hlen⟩
        exact hhead ⟨data, rfl, hlen, hflag⟩
      rw [Dtb.follow, if_neg hno]
      exact ih htail

theorem follow_inl (h : follow flag es = .inl data) : ∃ pre post, es = pre ++ .prop regName data :: post ∧ 16 ≤ data.length ∧
    flagAfter flag pre = true ∧ Clean flag pre := by
  induction es generalizing flag with
  | nil => simp [follow] at h
  | cons e es ih =>
    have behind : ∀ e, (¬ ∃ data, e = .prop regName data ∧ 16 ≤ data.length ∧ flag = true) → follow (e.step flag) es = .inl data →
        ∃ pre post, e :: es = pre ++ .prop regName data :: post ∧ 16 ≤ data.length ∧ flagAfter flag pre = true ∧ Clean flag pre := by
      intro e hhead h
      obtain ⟨pre, post, rfl, hlen, hflag, hclean⟩ := ih h
      exact ⟨e :: pre, post, rfl, hlen, hflag, clean_cons.mpr ⟨hhead, hclean⟩⟩
    cases e with
    | begin name => exact behind _ (by simp) h
    | fin => exact behind _ (by simp) h
    | prop name d =>
      rw [follow] at h
      split at h
      · next htaken =>
        obtain ⟨hflag, rfl, hlen⟩ := htaken
        obtain rfl := Sum.inl.inj h
        exact ⟨[], es, rfl, hlen, hflag, .nil⟩
      · next hno =>
        refine behind _ ?_ h
        rintro ⟨d', heq, hlen, hflag⟩
        obtain ⟨rfl, rfl⟩ := Event.prop.inj heq
        exact hno ⟨hflag, rfl, hlen⟩

theorem follow_inl_iff : follow false es = .inl data ↔ FirstReg es data := by
  constructor
  · intro h
    obtain ⟨pre, post, heq, hlen, hflag, hclean⟩ := follow_inl h
    refine ⟨pre, post, heq, hlen, flagAfter_iff.mp hflag, fun pre' data' post' heq' hlen' hunder => ?_⟩
    exact Bool.eq_false_iff.mp (hclean pre' data' post' heq' hlen') (flagAfter_iff.mpr hunder)
  · rintro ⟨pre, post, rfl, hlen, hunder, hfirst⟩
    have hclean : Clean false pre := fun pre' data' post' heq hlen' =>
      Bool.eq_false_iff.mpr fun hflag => hfirst pre' data' post' heq hlen' (flagAfter_iff.mp hflag)
    rw [follow_append, hclean.follow]
    simp only [follow]
    exact if_pos ⟨flagAfter_iff.mpr hunder, trivial, hlen⟩

/-- The first node with such a name, if it has its `reg` ahead of its children, is the one that counts. -/
theorem firstReg_of_first (pre own post : List Event) (hname : memoryName <+: name) (hlen : 16 ≤ data.length)
    (hpre : ∀ other, Event.begin other ∈ pre → ¬ memoryName <+: other)
    (hown : ∀ e ∈ own, ∃ other d, e = .prop other d ∧ ¬ (other = regName ∧ 16 ≤ d.length)) :
    FirstReg (pre ++ .begin name :: own ++ .prop regName data :: post) data := by
  have hfin : Event.fin ∉ own := fun h => by
    obtain ⟨other, d, heq, -⟩ := hown _ h
    exact absurd heq (by simp)
  refine ⟨pre ++ .begin name :: own, post, rfl, hlen, ⟨pre, name, own, rfl, hname, hfin⟩, ?_⟩
  rintro pre' d post' heq hd ⟨before, other, behind, rfl, hother, -⟩
  rcases List.append_eq_append_iff.mp heq with ⟨c, hc, hprop⟩ | ⟨c, rfl, -⟩
  · -- the `reg` would be one of the node's own properties
    cases c with
    | nil => exact absurd (List.cons.inj hprop).1 (by simp)
    | cons e c =>
      have hmem : Event.prop regName d ∈ own := by
        rw [(List.cons.inj hprop).2]
        exact List.mem_append_right c List.mem_cons_self
      obtain ⟨other', d', heq', hno⟩ := hown _ hmem
      obtain ⟨rfl, rfl⟩ := Event.prop.inj heq'
      exact hno ⟨rfl, hd⟩
  · exact hpre other (by simp) hother

/-! ## Bytes -/

theorem NameAt.hasString (h : NameAt m a name) : (unchecked m).HasString a name.length := by
  obtain ⟨hs, hne⟩ := h
  induction name generalizing a with
  | nil => exact ⟨fun _ _ => rfl, fun i hi => absurd hi (Nat.not_lt_zero i), hs⟩
  | cons c name ih =>
    have htail := ih hs.2 fun c' hc' => hne c' (List.mem_cons_of_mem c hc')
    refine ⟨fun _ _ => rfl, fun i hi => ?_, ?_⟩
    · cases i with
      | zero =>
        have : m a ≠ 0 := hs.1 ▸ hne c List.mem_cons_self
        exact this
      | succ i =>
        have := htail.ne_zero i (Nat.lt_of_succ_lt_succ hi)
        rwa [Nat.add_assoc, Nat.add_comm 1] at this
    · have := htail.nul
      rwa [Nat.add_assoc, Nat.add_comm 1] at this

theorem NameAt.startsWith_iff (h : NameAt m a name) (hstr : ∀ c ∈ str, c ≠ 0) : StartsWith m a str ↔ str <+: name := by
  obtain ⟨hs, hne⟩ := h
  induction str generalizing a name with
  | nil => exact ⟨fun _ => List.nil_prefix, fun _ => trivial⟩
  | cons c str ih =>
    have hc : c ≠ 0 := hstr c List.mem_cons_self
    cases name with
    | nil => exact ⟨fun hw => absurd (hw.1.symm.trans hs) hc, fun hp => absurd (List.prefix_nil.mp hp) (List.cons_ne_nil c str)⟩
    | cons d name =>
      have htail := ih (fun c' hc' => hstr c' (List.mem_cons_of_mem c hc')) hs.2 fun c' hc' => hne c' (List.mem_cons_of_mem d hc')
      rw [List.cons_prefix_cons, ← htail]
      exact ⟨fun hw => ⟨hw.1.symm.trans hs.1, hw.2⟩, fun hp => ⟨hs.1.trans hp.1.symm, hp.2⟩⟩

theorem NameAt.isString_iff (h : NameAt m a name) (hstr : ∀ c ∈ str, c ≠ 0) : IsString m a str ↔ name = str := by
  refine ⟨fun hi => ?_, fun heq => heq ▸ h.isString⟩
  obtain ⟨hs, hne⟩ := h
  induction str generalizing a name with
  | nil =>
    cases name with
    | nil => rfl
    | cons d name => exact absurd (hs.1.symm.trans hi) (hne d List.mem_cons_self)
  | cons c str ih =>
    cases name with
    | nil => exact absurd (hi.1.symm.trans hs) (hstr c List.mem_cons_self)
    | cons d name =>
      have htail := ih (fun c' hc' => hstr c' (List.mem_cons_of_mem c hc')) hi.2 hs.2 fun c' hc' => hne c' (List.mem_cons_of_mem d hc')
      rw [htail, ← hs.1, ← hi.1]

theorem comparable_unchecked : (unchecked m).Comparable a str := by
  induction str generalizing a with
  | nil => rfl
  | cons c str ih => exact ⟨rfl, fun _ => ih⟩

theorem StartsWith.drop (h : StartsWith m a data) (n : Nat) : StartsWith m (a + n) (data.drop n) := by
  induction n generalizing a data with
  | zero => exact h
  | succ n ih =>
    cases data with
    | nil => trivial
    | cons b data =>
      have hplace : a + (n + 1) = a + 1 + n := by omega
      rw [List.drop_succ_cons, hplace]
      exact ih h.2

theorem StartsWith.get (h : StartsWith m a data) (hn : n < data.length) : m (a + n) = data[n] := by
  have hdrop := h.drop n
  rw [List.drop_eq_getElem_cons hn] at hdrop
  exact hdrop.1

theorem StartsWith.getBe (h : StartsWith m a data) (hn : n ≤ data.length) : getBe m a n = beNat (data.take n) := by
  induction n with
  | zero => rfl
  | succ n ih =>
    rw [Dtb.getBe, ih (by omega), h.get (by omega), List.take_succ_eq_append_getElem (by omega)]
    simp only [beNat, List.foldl_append, List.foldl_cons, List.foldl_nil]

theorem align4_eq {k : Nat} {x : Int} (hp : p % 4 = 0) (hx : x = (p + k : Nat)) (hlt : p + k < 2 ^ 64) :
    align4 x = p + k / 4 * 4 := by
  have hmod : ((p + k : Nat) : Int) % 2 ^ 64 = (p + k : Nat) := by omega
  rw [align4, hx, hmod, Int.toNat_natCast]
  omega

/-! ## The scan -/

/-- Base and size, as they stand in a `reg` -/
def regBase (data : List UInt8) : Nat := beNat (data.take 8)

def regSize (data : List UInt8) : Nat := beNat ((data.drop 8).take 8)

/-- The scan from `q` on returns `r`, or has returned it already, from a `reg`. -/
def Leads (m : Bytes) (strings q : Nat) (r : Option (Nat × Nat)) : List UInt8 ⊕ Bool → Prop
  | .inl data => r = some (regBase data, regSize data)
  | .inr flag => Stops (unchecked m) strings ⟨q, flag⟩ r

theorem covers_unchecked : (unchecked m).Covers a n := fun _ _ => rfl

theorem goes_begin (hp : p % 4 = 0) (hlt : p + 4 + name.length + 4 < 2 ^ 64) (h : BeginAt m p name) :
    Goes (unchecked m) strings ⟨p, flag⟩ (.next ⟨p + 4 + padded (name.length + 1), (Event.begin name).step flag⟩) := by
  obtain ⟨ht, hname, hlen⟩ := h
  have hgoes := @Goes.beginNode (unchecked m) strings p flag _ covers_unchecked ht hname.hasString
  have hbmod : Int.bmod (name.length : Nat) (2 ^ 32) = name.length := by
    rw [Int.bmod_eq_of_le] <;> omega
  have hplace : ((p + 4 : Nat) : Int) + Int.bmod (name.length : Nat) (2 ^ 32) + 4 = (p + 4 + (name.length + 4) : Nat) := by omega
  have hflag : (if StartsWith m (p + 4) memoryName then true else flag) = (Event.begin name).step flag := by
    rw [Event.step]
    by_cases hmem : StartsWith m (p + 4) memoryName
    · rw [if_pos hmem, List.isPrefixOf_iff_prefix.mpr ((hname.startsWith_iff memoryName_ne_zero).mp hmem), Bool.or_true]
    · have hno := fun h => hmem ((hname.startsWith_iff memoryName_ne_zero).mpr (List.isPrefixOf_iff_prefix.mp h))
      rw [if_neg hmem, Bool.eq_false_iff.mpr hno, Bool.or_false]
  rw [align4_eq (by omega) hplace (by omega)] at hgoes
  rwa [← hflag]

/-- A property is behind the token, the length and the name. -/
theorem goes_prop (hp : p % 4 = 0) (hlt : p + 12 + data.length + 3 < 2 ^ 64) (h : PropAt m strings p name data) :
    Goes (unchecked m) strings ⟨p, flag⟩ (if flag = true ∧ name = regName ∧ 16 ≤ data.length then
      .ret (some (regBase data, regSize data)) else .next ⟨p + 12 + padded data.length, flag⟩) := by
  obtain ⟨ht, hlen, hname, hdata⟩ := h
  have hreg := hname.isString_iff regName_ne_zero
  split
  · next htaken =>
    obtain ⟨rfl, hisreg, hsize⟩ := htaken
    have hbase : getBe m (p + 12) 8 = regBase data := hdata.getBe (by omega)
    have hsz : getBe m (p + 20) 8 = regSize data := (hdata.drop 8).getBe (by rw [List.length_drop]; omega)
    rw [← hbase, ← hsz]
    exact .reg covers_unchecked ht comparable_unchecked (hreg.mpr hisreg) (hlen ▸ hsize) covers_unchecked
  · next hskip =>
    have hno : ¬ (flag = true ∧ IsString m (strings + cell m (p + 8)) regName ∧ 16 ≤ cell m (p + 4)) := by
      rwa [hreg, hlen]
    have hplace : ((p + 12 : Nat) : Int) + cell m (p + 4) + 3 = (p + 12 + (data.length + 3) : Nat) := by omega
    have hgoes := @Goes.prop (unchecked m) strings p flag covers_unchecked ht (fun _ => comparable_unchecked) hno
    change Goes _ _ _ (.next ⟨align4 ((p + 12 : Nat) + cell m (p + 4) + 3), flag⟩) at hgoes
    rwa [align4_eq (by omega) hplace (by omega)] at hgoes

theorem padded_spec (n : Nat) : padded n % 4 = 0 ∧ n ≤ padded n := by
  unfold padded
  omega

theorem Forest.size_mod (f : Forest) : f.size % 4 = 0 := by
  induction f with
  | nil => rfl
  | nop rest ih =>
    rw [Forest.size]
    omega
  | prop name data rest ih =>
    have := padded_spec data.length
    rw [Forest.size]
    omega
  | node name items rest ihitems ih =>
    have := padded_spec (name.length + 1)
    rw [Forest.size]
    omega

/-- Over items that are laid out the scan follows their events. -/
theorem Laid.stops {r : Option (Nat × Nat)} (h : Laid m strings f p) (hp : p % 4 = 0) (hq : p + f.size + 4 ≤ 2 ^ 64)
    (hrest : Leads m strings (p + f.size) r (follow flag f.events)) : Stops (unchecked m) strings ⟨p, flag⟩ r := by
  induction f generalizing p flag r with
  | nil => exact hrest
  | nop rest ih =>
    obtain ⟨ht, hlaid⟩ := h
    rw [Forest.size, ← Nat.add_assoc] at hq hrest
    exact .next (.nop covers_unchecked ht) (ih hlaid (by omega) hq hrest)
  | prop name data rest ih =>
    obtain ⟨hprop, hlaid⟩ := h
    have hpad := padded_spec data.length
    rw [Forest.size, ← Nat.add_assoc, ← Nat.add_assoc] at hq hrest
    have hgoes := @goes_prop _ _ _ _ _ flag hp (by omega) hprop
    rw [Forest.events, follow] at hrest
    split at hgoes
    · next hreg =>
      rw [if_pos hreg] at hrest
      obtain rfl : r = _ := hrest
      exact .ret hgoes
    · next hreg =>
      rw [if_neg hreg] at hrest
      exact .next hgoes (ih hlaid (by omega) hq hrest)
  | node name items rest ihitems ihrest =>
    obtain ⟨hbegin, hitems, hend, hlaid⟩ := h
    have hpad := padded_spec (name.length + 1)
    have hmod := items.size_mod
    have hplace : p + (Forest.node name items rest).size = p + 4 + padded (name.length + 1) + items.size + 4 + rest.size := by
      rw [Forest.size]
      omega
    rw [hplace] at hq hrest
    refine .next (goes_begin hp (by omega) hbegin) (ihitems hitems (by omega) (by omega) ?_)
    change Leads m strings _ r (follow ((Event.begin name).step flag) (items.events ++ .fin :: rest.events)) at hrest
    rw [follow_append] at hrest
    cases hitem : follow ((Event.begin name).step flag) items.events with
    | inl data =>
      rw [hitem] at hrest
      exact hrest
    | inr flag' =>
      rw [hitem] at hrest
      exact .next (.endNode covers_unchecked hend) (ihrest hlaid (by omega) hq hrest)

theorem Stops.det {v : View} {s : Scan} {r r' : Option (Nat × Nat)} (h : Stops v strings s r) (h' : Stops v strings s r') :
    r = r' := by
  obtain ⟨enough, hscan⟩ := h.scan
  obtain ⟨enough', hscan'⟩ := h'.scan
  have := (hscan (max enough enough') (Nat.le_max_left _ _)).symm.trans (hscan' _ (Nat.le_max_right _ _))
  exact Except.ok.inj this

/-- The result for a device tree: the first `reg` that is met with the flag set, or none. -/
theorem DeviceTree.stops {mem : Bytes} {dtb : Nat} {tree items : Forest} (h : DeviceTree mem dtb tree items) :
    Stops (unchecked mem) (stringsBase mem dtb) (scanStart mem dtb) (match follow false tree.events with
      | .inl data => some (regBase data, regSize data)
      | .inr _    => none) := by
  have hstruct := h.struct_aligned
  have haligned := h.aligned
  have hsize := h.size
  have hinside := h.struct_inside
  have hwrap := h.no_wrap
  refine h.laid.stops (by omega) (by omega) ?_
  cases follow false tree.events with
  | inl data => rfl
  | inr flag =>
    refine .ret (.other covers_unchecked ?_)
    change cell mem (dtb + cell mem (dtb + 8) + tree.size) ∉ _
    rw [h.ends]
    decide

/-- **`extract_memory_info` finds the memory**, its base and its size, exactly if the first `reg` that it meets with its flag set has
the base and the size of the memory's. -/
theorem extract_finds_memory_iff (mem : Bytes) (dtb : Nat) (tree items : Forest) (data : List UInt8)
    (h : MemoryTree mem dtb tree items data) :
    (∃ enough, ∀ fuel, enough ≤ fuel → extractMemoryInfo fuel (unchecked mem) dtb (FdtHeader.load mem dtb) =
      .ok (some (regBase data, regSize data))) ↔
    ∃ first, FirstReg tree.events first ∧ regBase first = regBase data ∧ regSize first = regSize data := by
  simp only [extractMemoryInfo_eq, scan_returns_iff, ← follow_inl_iff]
  have hstops := h.toDeviceTree.stops
  constructor
  · intro hright
    have heq := hstops.det hright
    cases hfollow : follow false tree.events with
    | inl first =>
      rw [hfollow] at heq
      obtain ⟨hbase, hsize⟩ := Prod.mk.inj (Option.some.inj heq)
      exact ⟨first, rfl, hbase, hsize⟩
    | inr flag =>
      rw [hfollow] at heq
      exact absurd heq (by simp)
  · rintro ⟨first, hfirst, hbase, hsize⟩
    rw [hfirst] at hstops
    rw [← hbase, ← hsize]
    exact hstops

/-- A blob with two nodes in the root, both with a `reg`: `name`, of ten characters, and `memory@0` behind it. -/
def boardBlob (name : List UInt8) : Bytes := fun a =>
  ([0xd0, 0x0d, 0xfe, 0xed, 0, 0, 0, 231, 0, 0, 0, 56, 0, 0, 0, 200, 0, 0, 0, 40, 0, 0, 0, 17, 0, 0, 0, 16, 0, 0, 0, 0,
    0, 0, 0, 31, 0, 0, 0, 144] ++ List.replicate 16 0 ++
  [0, 0, 0, 1, 0, 0, 0, 0, 0, 0, 0, 3, 0, 0, 0, 4, 0, 0, 0, 0, 0, 0, 0, 2, 0, 0, 0, 3, 0, 0, 0, 4, 0, 0, 0, 15, 0, 0, 0, 2] ++
  [0, 0, 0, 1] ++ name ++ [0, 0, 0, 0, 0, 3, 0, 0, 0, 16, 0, 0, 0, 27] ++ [0, 0, 0, 0, 16, 0, 0, 0, 0, 0, 0, 0, 0, 0, 16, 0] ++
  [0, 0, 0, 2, 0, 0, 0, 1] ++ memoryName ++ [0x40, 0x30, 0, 0, 0, 0] ++ [0, 0, 0, 3, 0, 0, 0, 16, 0, 0, 0, 27] ++
  [0, 0, 0, 0, 128, 0, 0, 0, 0, 0, 0, 0, 8, 0, 0, 0] ++ [0, 0, 0, 2, 0, 0, 0, 2, 0, 0, 0, 9] ++
  addressCells ++ [0] ++ sizeCells ++ [0] ++ regName ++ [0]).getD (a - 0xFFFFFFFFC2200000) 0

def boardItems (name : List UInt8) : Forest :=
  .prop addressCells [0, 0, 0, 2] <| .prop sizeCells [0, 0, 0, 2] <|
  .node name (.prop regName [0, 0, 0, 0, 16, 0, 0, 0, 0, 0, 0, 0, 0, 0, 16, 0] .nil) <|
  .node (memoryName ++ [0x40, 0x30]) (.prop regName [0, 0, 0, 0, 128, 0, 0, 0, 0, 0, 0, 0, 8, 0, 0, 0] .nil) .nil

theorem memoryTree_board (name : List UInt8) (h : name = (CString.lit "serial@100").chars ∨ name = (CString.lit "memory-ctl").chars) :
    MemoryTree (boardBlob name) 0xFFFFFFFFC2200000 (.node [] (boardItems name) .nil) (boardItems name)
      [0, 0, 0, 0, 128, 0, 0, 0, 0, 0, 0, 0, 8, 0, 0, 0] where
  aligned := by decide
  magic := by rcases h with rfl | rfl <;> decide +kernel
  no_wrap := by rcases h with rfl | rfl <;> decide +kernel
  struct_aligned := by rcases h with rfl | rfl <;> decide +kernel
  struct_inside := by rcases h with rfl | rfl <;> decide +kernel
  strings_inside := by rcases h with rfl | rfl <;> decide +kernel
  laid := by rcases h with rfl | rfl <;> decide +kernel
  ends := by rcases h with rfl | rfl <;> decide +kernel
  size := by rcases h with rfl | rfl <;> decide +kernel
  root := rfl
  no_props := rfl
  address_cells := rfl
  size_cells := rfl
  memory := ⟨memoryName ++ [0x40, 0x30], _, by rcases h with rfl | rfl <;> rfl, rfl⟩
  reg_length := by decide

theorem extract_finds_memory_board : ∃ enough, ∀ fuel, enough ≤ fuel →
    extractMemoryInfo fuel (unchecked (boardBlob (CString.lit "serial@100").chars)) 0xFFFFFFFFC2200000
      (FdtHeader.load (boardBlob (CString.lit "serial@100").chars) 0xFFFFFFFFC2200000) = .ok (some (0x80000000, 0x8000000)) := by
  have hfirst := firstReg_of_first [.begin [], .prop addressCells [0, 0, 0, 2], .prop sizeCells [0, 0, 0, 2],
    .begin (CString.lit "serial@100").chars, .prop regName [0, 0, 0, 0, 16, 0, 0, 0, 0, 0, 0, 0, 0, 0, 16, 0], .fin] [] [.fin, .fin]
    (List.prefix_append memoryName [0x40, 0x30]) (by decide : 16 ≤ [0, 0, 0, 0, 128, 0, 0, 0, 0, 0, 0, 0, 8, 0, 0, (0 : UInt8)].length)
    (by simp +decide) (by simp)
  exact (extract_finds_memory_iff _ _ _ _ _ (memoryTree_board _ (.inl rfl))).mpr ⟨_, hfirst, rfl, rfl⟩

/-- The `reg` of `memory-ctl` is taken for the memory's. -/
theorem extract_finds_controller :
    MemoryTree (boardBlob (CString.lit "memory-ctl").chars) 0xFFFFFFFFC2200000
      (.node [] (boardItems (CString.lit "memory-ctl").chars) .nil) (boardItems (CString.lit "memory-ctl").chars)
      [0, 0, 0, 0, 128, 0, 0, 0, 0, 0, 0, 0, 8, 0, 0, 0] ∧
    ¬ ∃ enough, ∀ fuel, enough ≤ fuel →
      extractMemoryInfo fuel (unchecked (boardBlob (CString.lit "memory-ctl").chars)) 0xFFFFFFFFC2200000
        (FdtHeader.load (boardBlob (CString.lit "memory-ctl").chars) 0xFFFFFFFFC2200000) = .ok (some (0x80000000, 0x8000000)) := by
  have htree := memoryTree_board (CString.lit "memory-ctl").chars (.inr rfl)
  refine ⟨htree, fun hright => ?_⟩
  simp only [extractMemoryInfo_eq, scan_returns_iff] at hright
  have heq := htree.toDeviceTree.stops.det hright
  exact absurd heq (by decide)

end Ucore.Dtb
