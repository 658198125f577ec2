import Ucore.Mm.Correctness.MmMap
import Ucore.Process.Correctness.LoadImage

/-!
# `Process.Correctness.LoadPages` — the pages of an address space that is being filled

`ProgLoaded Q x N k`: the user pages in `N` are mapped, each to a page of its own and with permissions as in `Q`, and at the
addresses that `k` knows they have the bytes that `k` says. Everywhere else the pages hold what they held at the start, which
is `x`. An area is added, a page is mapped inside of an area, and a block is copied to a page that is mapped; nothing else
happens while a program is loaded.
-/

namespace Ucore

open PageMem Known

structure ProgLoaded (Q : Nat → Perm → Prop) (x : Nat → Bytes) (L : Nat → Prop) (m : Nat) (N : Nat → Prop) (k : Known) (s : Vm) :
    Prop where
  inv : s.Inv {m} L
  user : ∀ n, N n → n < userPages
  perms : ∀ n, N n → Q n (s.mem.leaf (s.mm m).pgdir n).perm
  mapped : ∀ n, n < userPages → (s.mem.maps (s.mm m).pgdir n ≠ none ↔ N n)
  inj : ∀ n n' p, n < userPages → n' < userPages → s.mem.maps (s.mm m).pgdir n = some p →
    s.mem.maps (s.mm m).pgdir n' = some p → n = n'
  other : ∀ p, (∀ n, n < userPages → s.mem.maps (s.mm m).pgdir n ≠ some p) → s.mem.data p = x p
  bytes : ∀ n p i, n < userPages → i < pgsize → s.mem.maps (s.mm m).pgdir n = some p →
    s.mem.data p i = (k (n * pgsize + i)).getD (x p i)
  within : Within pgsize N k

/-- The page lies in an area. -/
def Vm.InArea (s : Vm) (m n : Nat) : Prop := ∃ v ∈ (s.mm m).mmapList, v.Has n

variable {Q : Nat → Perm → Prop} {x : Nat → Bytes} {L N N' : Nat → Prop} {m n p la off start len addr : Nat} {k : Known} {s s' : Vm} {v : Vma}
  {perm : Perm} {flags : VmFlags}

namespace ProgLoaded

theorem congr (h : ProgLoaded Q x L m N k s) (hN : ∀ n, N n ↔ N' n) : ProgLoaded Q x L m N' k s := by
  obtain rfl : N = N' := funext fun n => propext (hN n)
  exact h

theorem wf (h : ProgLoaded Q x L m N k s) : (s.mm m).Wf := h.inv.wf m (Finset.mem_singleton_self m)

theorem of_mapped (h : ProgLoaded Q x L m N k s) (hn : n < userPages) (hp : s.mem.maps (s.mm m).pgdir n = some p) : N n :=
  (h.mapped n hn).mp (by rw [hp]; exact Option.some_ne_none p)

theorem page (h : ProgLoaded Q x L m N k s) (hn : N n) : ∃ p, s.mem.maps (s.mm m).pgdir n = some p :=
  Option.ne_none_iff_exists'.mp ((h.mapped n (h.user n hn)).mpr hn)

/-- The pages that are mapped were free. -/
theorem not_lost (h : ProgLoaded Q x L m N k s) (hn : n < userPages) (hp : s.mem.maps (s.mm m).pgdir n = some p) : ¬ L p :=
  h.inv.sound.not_lost (.inr (count_pos (Vm.mem_dirs (Finset.mem_singleton_self m)) hn hp))

theorem inArea (h : ProgLoaded Q x L m N k s) (hn : N n) : s.InArea m n :=
  h.inv.inside m (Finset.mem_singleton_self m) n (h.user n hn) ((h.mapped n (h.user n hn)).mpr hn)

/-- **An area is added**, apart from the others. -/
theorem map (h : ProgLoaded Q x L m N k s) (hrun : mmMap m addr len flags s = .ok () s') :
    ProgLoaded Q x L m N k s' ∧ UserAccess (mapStart addr) (mapEnd addr len) ∧
      (∃ v ∈ (s'.mm m).mmapList, v.vmStart = mapStart addr ∧ v.vmEnd = mapEnd addr len) ∧
      (∀ n, s.InArea m n → s'.InArea m n) ∧
      ∀ n, mapStart addr ≤ n * pgsize → n * pgsize < mapEnd addr len → ¬ s.InArea m n := by
  obtain ⟨⟨hac, hno⟩, hmore⟩ := mmMap_ok h.wf.toSorted hrun
  have hinv := (mmMap_inv h.inv m addr len flags).of_ok hrun
  refine ⟨⟨hinv, h.user, ?_, ?_, ?_, ?_, ?_, h.within⟩, hac, ?_, ?_, ?_⟩
  · rw [hmore.mem, hmore.pgdir]
    exact h.perms
  · rw [hmore.mem, hmore.pgdir]
    exact h.mapped
  · rw [hmore.mem, hmore.pgdir]
    exact h.inj
  · rw [hmore.mem, hmore.pgdir]
    exact h.other
  · rw [hmore.mem, hmore.pgdir]
    exact h.bytes
  · obtain ⟨v, l1, l2, hstart, hend, -, -, hlist⟩ := hmore.list
    refine ⟨v, ?_, hstart, hend⟩
    rw [hlist]
    exact List.mem_append_right l1 List.mem_cons_self
  · rintro n ⟨w, hw, hhas⟩
    obtain ⟨v, l1, l2, -, -, -, hold, hlist⟩ := hmore.list
    refine ⟨w, ?_, hhas⟩
    rw [hold, List.mem_append] at hw
    rw [hlist, List.mem_append, List.mem_cons]
    tauto
  · rintro n hlo hhi ⟨v, hv, hhas⟩
    exact hno v hv ⟨lt_of_le_of_lt hlo hhas.2, lt_of_le_of_lt hhas.1 hhi⟩

end ProgLoaded

/-- An address is in its page. -/
theorem page_of_addr (n : Nat) {i : Nat} (hi : i < pgsize) : (n * pgsize + i) / pgsize = n := by
  rw [Nat.mul_comm, Nat.mul_add_div (by decide), Nat.div_eq_of_lt hi, Nat.add_zero]

/-- The page `p`, which was mapped nowhere, is mapped for the user page `a`, and nothing else changes. -/
structure Vm.PageAdded (s s' : Vm) (m a p : Nat) (perm : Perm) : Prop where
  mm : s'.mm = s.mm
  leaf : ∀ n, n < userPages → s'.mem.leaf (s.mm m).pgdir n = if n = a then pteCreate p perm else s.mem.leaf (s.mm m).pgdir n
  data : s'.mem.data = s.mem.data
  new : ∀ n, n < userPages → s.mem.maps (s.mm m).pgdir n ≠ some p

namespace Vm.PageAdded

variable {a : Nat}

theorem maps (ha : s.PageAdded s' m a p perm) (hn : n < userPages) :
    s'.mem.maps (s.mm m).pgdir n = if n = a then some p else s.mem.maps (s.mm m).pgdir n := by
  rw [PageMem.maps, ha.leaf n hn]
  by_cases heq : n = a
  · rw [if_pos heq, if_pos heq]
    rfl
  · rw [if_neg heq, if_neg heq]
    rfl

end Vm.PageAdded

namespace ProgLoaded

/-- The new page has been free, so it was not mapped before. -/
theorem alloc_added (h : ProgLoaded Q x L m N k s) (hla : la < userTop)
    (hrun : inMem (pgdirAllocPage (s.mm m).pgdir la perm) s = .ok (some p) s') : s.PageAdded s' m (la / pgsize) p perm := by
  have hd : (s.mm m).pgdir ∈ s.dirs {m} := Vm.mem_dirs (Finset.mem_singleton_self m)
  rcases pgdirAllocPage_spec h.inv.sound hd hla perm with hnone | ⟨q, s1, -, -, -, hnone⟩ | ⟨q, t, hq, hins, hsome⟩
  · rw [inMem, Proc.zoom_ok hnone] at hrun
    cases hrun
  · rw [inMem, Proc.zoom_ok hnone] at hrun
    cases hrun
  · rw [inMem, Proc.zoom_ok hsome] at hrun
    cases hrun
    refine ⟨rfl, fun n hn => ?_, ?_, fun n hn hp => (h.inv.sound.leafBusy _ hd n p hn hp).1 hq⟩
    · refine (hins.leaf hd hn).trans ?_
      exact if_congr (and_iff_right rfl) rfl rfl
    · obtain ⟨s1, hg, hr⟩ := hins
      exact hr.data.trans hg.data

/-- What is known after a page has been added. -/
theorem of_added (h : ProgLoaded Q x L m N k s) (ha : s.PageAdded s' m n p perm) (hinv : s'.Inv {m} L) (hn : n < userPages)
    (hno : ¬ N n) (hQ : Q n perm) : ProgLoaded Q x L m (fun a => N a ∨ a = n) k s' := by
  refine ⟨hinv, ?_, ?_, ?_, ?_, ?_, ?_, h.within.mono fun n => .inl⟩
  · rintro a (ha | rfl)
    · exact h.user a ha
    · exact hn
  · intro a hor
    rw [ha.mm]
    by_cases heq : a = n
    · subst heq
      rw [ha.leaf _ hn, if_pos rfl]
      exact hQ
    · have hold := hor.resolve_right heq
      rw [ha.leaf a (h.user a hold), if_neg heq]
      exact h.perms a hold
  · intro a hlt
    rw [ha.mm, ha.maps hlt]
    split
    · next heq => exact ⟨fun _ => .inr heq, fun _ => Option.some_ne_none p⟩
    · next hne =>
      rw [h.mapped a hlt]
      exact ⟨.inl, fun hor => hor.resolve_right hne⟩
  · intro a b q hlt hlt' h1 h2
    rw [ha.mm, ha.maps hlt] at h1
    rw [ha.mm, ha.maps hlt'] at h2
    split at h1
    · next heq =>
      cases h1
      split at h2
      · next heq' => rw [heq, heq']
      · exact absurd h2 (ha.new b hlt')
    · split at h2
      · cases h2
        exact absurd h1 (ha.new a hlt)
      · exact h.inj a b q hlt hlt' h1 h2
  · intro q hunmapped
    rw [ha.data]
    refine h.other q fun a hlt hp => hunmapped a hlt ?_
    rw [ha.mm, ha.maps hlt, if_neg]
    · exact hp
    · rintro rfl
      exact hno (h.of_mapped hlt hp)
  · intro a q i hlt hi hp
    rw [ha.mm, ha.maps hlt] at hp
    rw [ha.data]
    split at hp
    · next heq =>
      -- nothing is known of the new page, and it holds what it held
      cases hp
      have hun : k (a * pgsize + i) = none := by
        refine h.within.unknown ?_
        rw [page_of_addr a hi, heq]
        exact hno
      rw [hun, h.other p ha.new]
      rfl
    · exact h.bytes a q i hlt hi hp

/-- **A page is mapped** inside of an area, where there was none. -/
theorem alloc (h : ProgLoaded Q x L m N k s) (hv : v ∈ (s.mm m).mmapList) (hla : v.Contains la) (hno : ¬ N (la / pgsize))
    (hQ : Q (la / pgsize) perm) (hrun : inMem (pgdirAllocPage (s.mm m).pgdir la perm) s = .ok (some p) s') :
    ProgLoaded Q x L m (fun n => N n ∨ n = la / pgsize) k s' ∧ s'.mm = s.mm ∧
      s'.mem.maps (s'.mm m).pgdir (la / pgsize) = some p := by
  have hok := h.wf.ok v hv
  have htop := hok.lt_userTop hla
  have hpage := page_lt htop
  have hinv := (allocAt_inv h.inv (Finset.mem_singleton_self m) hv hla perm).of_ok hrun
  have ha := h.alloc_added htop hrun
  refine ⟨h.of_added ha hinv hpage hno hQ, ha.mm, ?_⟩
  rw [ha.mm, ha.maps hpage, if_pos rfl]

/-- **A block is copied** to a page that is mapped. -/
theorem write (h : ProgLoaded Q x L m N k s) (hn : n < userPages) (hp : s.mem.maps (s.mm m).pgdir n = some p) (src : Bytes)
    (start : Nat) (hfit : off + len ≤ pgsize) :
    ProgLoaded Q x L m N (k.put (n * pgsize + off) (n * pgsize + off + len) fun a => src (start + (a - (n * pgsize + off))))
      (s.setMem (s.mem.setData p (memcpy (s.mem.data p) off src start len))) := by
  have hm := Finset.mem_singleton_self m
  have hsound : Sound (s.mem.setData p (memcpy (s.mem.data p) off src start len)) (s.dirs {m}) L :=
    h.inv.sound.of_free rfl (fun _ _ _ => rfl) fun _ hq => .inl hq
  have hblock : ∀ a, n * pgsize + off ≤ a → a < n * pgsize + off + len → a / pgsize = n := by
    intro a hlo hhi
    obtain ⟨i, rfl⟩ := Nat.exists_eq_add_of_le (Nat.le_trans (Nat.le_add_right _ off) hlo)
    exact page_of_addr n (by omega)
  refine ⟨?_, h.user, h.perms, h.mapped, h.inj, ?_, ?_, ?_⟩
  · exact h.inv.setMem (R := fun _ => False) hm ⟨hsound, fun _ _ _ _ _ => rfl, Nat.le_refl _⟩ fun _ _ hf => hf.elim
  · intro q hq
    have hne : q ≠ p := by
      rintro rfl
      exact hq n hn hp
    exact (Function.update_of_ne hne _ _).trans (h.other q hq)
  · intro n' q i hn' hi hq
    show Function.update s.mem.data p (memcpy (s.mem.data p) off src start len) q i = _
    change s.mem.maps (s.mm m).pgdir n' = some q at hq
    have hold := h.bytes n' q i hn' hi hq
    by_cases heq : q = p
    · subst heq
      obtain rfl := h.inj n' n q hn' hn hq hp
      rw [Function.update_self]
      by_cases hin : off ≤ i ∧ i < off + len
      · rw [memcpy_in hin, put_in (by omega)]
        show _ = src (start + (n' * pgsize + i - (n' * pgsize + off)))
        congr 2
        omega
      · rw [memcpy_out hin, put_out (by omega)]
        exact hold
    · -- an address of another page is not in the block
      rw [Function.update_of_ne heq, hold, put_out]
      rintro ⟨hlo, hhi⟩
      have hpage : n' = n := (page_of_addr n' hi).symm.trans (hblock _ hlo hhi)
      subst hpage
      rw [hq] at hp
      exact heq (Option.some.inj hp)
  · refine h.within.put fun a hlo hhi => ?_
    rw [hblock a hlo hhi]
    exact h.of_mapped hn hp

end ProgLoaded

end Ucore
