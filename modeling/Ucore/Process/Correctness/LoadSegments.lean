import Ucore.Process.Correctness.LoadSpace

/-!
# `Process.Correctness.LoadSegments` — the segments of a program in its address space

A segment without file bytes that begins inside of a page has its first page nowhere: there is no page to clear the rest of, and
the BSS goes on behind it. Otherwise the new process finds the bytes of the file, and zeros behind them.
-/

namespace Ucore

open PageMem Known

variable {boot : Nat → Pte} {file : ElfFile} {argc : Nat} {kargv : Nat → Bytes} {s t : Exec} {ph : ProgHdr} {a : Nat}

/-- The memory of the segment is mapped with its permissions, and has the bytes of the file and then zeros. -/
def ProgHdr.LoadedIn (ph : ProgHdr) (b : Bytes) (t : Exec) : Prop := ∀ a, ph.pVa ≤ a → a < ph.pVa + ph.pMemsz →
  (t.pte a).v = true ∧ (t.pte a).perm = ph.perm ∧
    t.user a = some (if a < ph.pVa + ph.pFilesz then b (ph.pOffset + (a - ph.pVa)) else 0)

/-- There is a page for the first byte. -/
def ProgHdr.Placed (ph : ProgHdr) : Prop := ¬ ph.Wraps ∧ (ph.pFilesz = 0 → ph.pMemsz = 0 ∨ ph.pVa % pgsize = 0)

instance (ph : ProgHdr) : Decidable ph.Wraps := inferInstanceAs (Decidable (_ ≤ _))
instance (ph : ProgHdr) : Decidable ph.Placed := inferInstanceAs (Decidable (¬ _ ∧ (_ → _)))

namespace ProgHdr

/-- Where nothing wraps, the ends are sums. -/
theorem ends (h : ph.Loads) (hw : ¬ ph.Wraps) : ph.stop = ph.pVa + ph.pFilesz ∧ ph.stopMem = ph.pVa + ph.pMemsz := by
  have hsum : ph.pVa + ph.pMemsz < 2 ^ 64 := Nat.lt_of_not_le hw
  have hsz := h.sizes
  exact ⟨Nat.mod_eq_of_lt (by omega), Nat.mod_eq_of_lt hsum⟩

/-- The pages are those of all the memory. -/
theorem Placed.pages (hp : ph.Placed) (h : ph.Loads) (hlo : ph.pVa ≤ a) (hhi : a < ph.pVa + ph.pMemsz) : ph.Pages (a / pgsize) := by
  obtain ⟨hstop, hmem⟩ := ends h hp.1
  have hpg : pgsize = 4096 := rfl
  have hfirst := hp.2
  rw [Pages, hstop, hmem]
  rw [hpg] at hfirst ⊢
  refine ⟨?_, by omega⟩
  split <;> omega

/-- What is written there. -/
theorem Placed.image (hp : ph.Placed) (h : ph.Loads) (hlo : ph.pVa ≤ a) (hhi : a < ph.pVa + ph.pMemsz) (b : Bytes) (k : Known) :
    ph.image b k a = some (if a < ph.pVa + ph.pFilesz then b (ph.pOffset + (a - ph.pVa)) else 0) := by
  obtain ⟨hstop, hmem⟩ := ends h hp.1
  split
  · next hfile => exact image_file hlo (hstop ▸ hfile)
  · next hfile =>
    refine image_bss ?_ (hmem ▸ hhi) (by omega)
    have hfirst := hp.2
    have hpg : pgsize = 4096 := rfl
    rw [bssStart, pageUp, hstop]
    rw [hpg] at hfirst ⊢
    split <;> omega

end ProgHdr

theorem SegsLoaded.apart_pages {phs : List ProgHdr} (h : SegsLoaded phs) :
    phs.Pairwise fun a b => ∀ n, a.Pages n → ¬ b.Pages n :=
  h.apart.imp_of_mem fun ha hb hab n hna hnb => hab n ((h.loads _ ha).pages_area hna) ((h.loads _ hb).pages_area hnb)

/-- Two segments with a page in common are one. -/
theorem SegsLoaded.unique {phs : List ProgHdr} (h : SegsLoaded phs) {p q : ProgHdr} {n : Nat} (hp : p ∈ phs) (hq : q ∈ phs)
    (hpn : p.AreaPages n) (hqn : q.AreaPages n) : p = q := by
  by_contra hne
  have hsymm : Std.Symm fun a b : ProgHdr => ∀ n, a.AreaPages n → ¬ b.AreaPages n := ⟨fun a b hab n hb ha => hab n ha hb⟩
  exact h.apart.forall hp hq hne n hpn hqn

end Ucore
