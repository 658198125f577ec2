import Ucore.Process.Correctness.LoadPages

/-!
# `Process.Correctness.LoadRun` — what a `load_icode` that returns has written

Each loop is followed page by page. `Filling N k mm s`: the areas are those of `mm`, the pages of `N` are mapped, and `k` is what
is known of their bytes. At the end the user pages are those of the segments and of the stack, and their bytes are those of
`loadImage`, or what the pages held when they were free (`loadIcode_ok`).
-/

namespace Ucore

open PageMem Known

variable {α : Type} {Q : Nat → Perm → Prop} {x : Nat → Bytes} {L N : Nat → Prop} {m n p la start stop base page off len : Nat}
  {k : Known} {mm : Nat → Mm}
  {s s' : Exec} {v : Vma} {perm : Perm} {file : ElfFile} {ph : ProgHdr} {kargv : Nat → Bytes}

structure Filling (Q : Nat → Perm → Prop) (x : Nat → Bytes) (L : Nat → Prop) (m : Nat) (N : Nat → Prop) (k : Known)
    (mm : Nat → Mm) (s : Exec) : Prop extends ProgLoaded Q x L m N k s.vm where
  areas : s.vm.mm = mm

theorem inVm_ok {f : VmM α} {a : α} (h : inVm f s = .ok a s') : ∃ v, f s.vm = .ok a v ∧ s' = { s with vm := v } := by
  rw [inVm] at h
  cases hf : f s.vm with
  | ok b v =>
    rw [hf] at h
    cases h
    exact ⟨v, rfl, rfl⟩
  | err e v =>
    rw [hf] at h
    cases h
  | panic p =>
    rw [hf] at h
    cases h

/-- A read that succeeds has got all the bytes, so they are in the file. -/
theorem loadIcodeRead_ok (file : ElfFile) (len off : Nat) (h : (loadIcodeRead file len off).2 = 0) :
    min (file.got off len) len = len ∧ (0 < len → off + len < 2 ^ 63) := by
  have hall : min (file.got off len) len = len := by
    by_contra hne
    rw [loadIcodeRead] at h
    dsimp only at h
    rw [if_neg hne] at h
    split at h
    · next hneg => omega
    · omega
  have hgot := file.got_le off len
  have hsize := file.size_lt
  exact ⟨hall, fun _ => by omega⟩

theorem readHdr_ok {hdr : Bytes → α} {a : α} (h : readHdr file hdr len off s = .ok a s') :
    a = hdr (fun i => file.bytes (off + i)) ∧ s' = s := by
  rw [readHdr] at h
  split at h
  · cases h
  · cases h
    exact ⟨rfl, rfl⟩

/-! ## Steps -/

namespace Filling

theorem congr {N' : Nat → Prop} (h : Filling Q x L m N k mm s) (hN : ∀ n, N n ↔ N' n) : Filling Q x L m N' k mm s :=
  ⟨h.toProgLoaded.congr hN, h.areas⟩

theorem alloc (h : Filling Q x L m N k mm s) (hv : v ∈ (mm m).mmapList) (hla : v.Contains la) (hno : ¬ N (la / pgsize))
    (hQ : Q (la / pgsize) perm) (hrun : inVm (inMem (pgdirAllocPage (mm m).pgdir la perm)) s = .ok (some p) s') :
    Filling Q x L m (fun n => N n ∨ n = la / pgsize) k mm s' ∧ s'.vm.mem.maps (mm m).pgdir (la / pgsize) = some p := by
  obtain ⟨v', hin, rfl⟩ := inVm_ok hrun
  rw [← h.areas] at hv hin
  obtain ⟨hl, hmm, hp⟩ := h.toProgLoaded.alloc hv hla hno hQ hin
  have hareas : v'.mm = mm := hmm.trans h.areas
  refine ⟨⟨hl, hareas⟩, ?_⟩
  rw [hareas] at hp
  exact hp

theorem write (h : Filling Q x L m N k mm s) (hn : n < userPages) (hp : s.vm.mem.maps (mm m).pgdir n = some p) (src : Bytes)
    (start : Nat) (hfit : off + len ≤ pgsize) (hrun : copyToPage p off src start len s = .ok () s') :
    Filling Q x L m N (k.put (n * pgsize + off) (n * pgsize + off + len) fun a => src (start + (a - (n * pgsize + off)))) mm s' := by
  cases hrun
  rw [← h.areas] at hp
  exact ⟨h.toProgLoaded.write hn hp src start hfit, h.areas⟩

end Filling

/-! ## The file bytes of a segment -/

/-- A round of the loop, if it goes on. -/
theorem loadFile_round {d fuel r : Nat} (hlt : start < ph.stop) (hrun : loadFile file ph d (fuel + 1) start la s = .ok r s') :
    ∃ p s1 s2, inVm (inMem (pgdirAllocPage d la ph.perm)) s = .ok (some p) s1 ∧
      copyToPage p (start - la) (fun i => file.bytes ((ph.pOffset + (start - ph.pVa)) % 2 ^ 64 + i)) 0
        (min (ph.stop - start) (pgsize - (start - la))) s1 = .ok () s2 ∧
      (0 < min (ph.stop - start) (pgsize - (start - la)) →
        (ph.pOffset + (start - ph.pVa)) % 2 ^ 64 + min (ph.stop - start) (pgsize - (start - la)) < 2 ^ 63) ∧
      loadFile file ph d fuel (start + min (ph.stop - start) (pgsize - (start - la)))
        (if start + min (ph.stop - start) (pgsize - (start - la)) < ph.stop ∧
          start + min (ph.stop - start) (pgsize - (start - la)) ≥ la + pgsize then la + pgsize else la) s2 = .ok r s' := by
  rw [loadFile, if_pos hlt] at hrun
  obtain ⟨page, s1, halloc, hrun⟩ := Proc.bind_eq_ok.mp hrun
  cases page with
  | none => cases hrun
  | some p =>
    obtain ⟨_, s2, hcopy, hrun⟩ := Proc.bind_eq_ok.mp hrun
    change (if (loadIcodeRead file (min (ph.stop - start) (pgsize - (start - la)))
      ((ph.pOffset + (start - ph.pVa)) % 2 ^ 64)).2 ≠ 0 then Proc.fail _ else _ : ExecM Nat) s2 = _ at hrun
    split at hrun
    · cases hrun
    · next hret =>
      obtain ⟨hall, hin⟩ := loadIcodeRead_ok file _ _ (not_not.mp hret)
      rw [hall] at hcopy
      exact ⟨p, s1, s2, halloc, hcopy, hin, hrun⟩

/-- **Load File Content.** -/
theorem loadFile_ok (hv : v ∈ (mm m).mmapList) (hstop : ph.stop ≤ v.vmEnd) (htop : v.vmEnd ≤ userTop)
    (hQ : ph.pVa < ph.stop → ∀ n, ph.pVa / pgsize ≤ n → n * pgsize < ph.stop → Q n ph.perm) :
    ∀ fuel start la r N k (s s' : Exec), Filling Q x L m N k mm s →
    ph.pVa ≤ start → (start < ph.stop → la = rounddown start pgsize ∧ ph.pOffset + (start - ph.pVa) < 2 ^ 64 ∧ v.vmStart ≤ la ∧
      ∀ n, start / pgsize ≤ n → n * pgsize < ph.stop → ¬ N n) →
    loadFile file ph (mm m).pgdir fuel start la s = .ok r s' →
    r = max start ph.stop ∧ Filling Q x L m (fun n => N n ∨ (start < ph.stop ∧ start / pgsize ≤ n ∧ n * pgsize < ph.stop))
      (k.put start ph.stop (ph.fileByte file.bytes)) mm s' := by
  have hpg : pgsize = 4096 := rfl
  intro fuel
  induction fuel with
  | zero => exact fun start la r N k s s' _ _ _ hrun => nomatch hrun
  | succ fuel ih =>
    intro start la r N k s s' h hva hpre hrun
    by_cases hlt : start < ph.stop
    · obtain ⟨hla, hoff, hstart, hfresh⟩ := hpre hlt
      obtain ⟨p, s1, s2, halloc, hcopy, hin, hrun⟩ := loadFile_round hlt hrun
      have hdown : rounddown start pgsize = start - start % 4096 := rfl
      have hpage : la / pgsize = start / pgsize := by
        rw [hla, hdown, hpg]
        omega
      have hlaStart : la ≤ start := by
        rw [hla, hdown]
        omega
      have hno : ¬ N (la / pgsize) := by
        rw [hpage]
        exact hfresh _ (Nat.le_refl _) (by rw [hpg]; omega)
      have hcon : v.Contains la := ⟨hstart, by omega⟩
      have hperm : Q (la / pgsize) ph.perm := by
        rw [hpage]
        exact hQ (by omega) _ (Nat.div_le_div_right hva) (by rw [hpg]; omega)
      obtain ⟨h1, hp⟩ := h.alloc hv hcon hno hperm halloc
      have hn : la / pgsize < userPages := page_lt (by omega)
      generalize hsize : min (ph.stop - start) (pgsize - (start - la)) = size at *
      rw [hpg] at hsize
      have h2 := h1.write hn hp _ _ (by rw [hpg]; omega) hcopy
      -- the block is the part of this page that lies in the file
      have hpos : la / pgsize * pgsize + (start - la) = start := by
        rw [hla, hdown, hpg]
        omega
      have hblock : ∀ a, start ≤ a → a < start + size →
          file.bytes ((ph.pOffset + (start - ph.pVa)) % 2 ^ 64 + (0 + (a - start))) = ph.fileByte file.bytes a := by
        intro a hlo hhi
        rw [ProgHdr.fileByte, Nat.mod_eq_of_lt hoff]
        congr 1
        omega
      rw [hpos, put_congr hblock] at h2
      have hnext : start + size < ph.stop → start + size = la + pgsize := by
        rw [hpg]
        omega
      have hal : la % 4096 = 0 := by
        rw [hla, hdown]
        omega
      obtain ⟨hr, h3⟩ := ih _ _ r _ _ s2 s' h2 (by omega) (by
        intro hmore
        have hfull := hnext hmore
        have hdown' : rounddown (la + pgsize) pgsize = la + 4096 - (la + 4096) % 4096 := rfl
        rw [Nat.mod_eq_of_lt hoff] at hin
        rw [if_pos ⟨hmore, hfull.ge⟩, hfull, hdown', hpg]
        refine ⟨by omega, by omega, by omega, ?_⟩
        rintro n hlo hhi (hn' | rfl)
        · refine hfresh n ?_ hhi hn'
          rw [hpg]
          omega
        · omega) hrun
      refine ⟨by omega, ?_⟩
      rw [put_append (by omega) (by omega)] at h3
      refine h3.congr fun n => ?_
      rw [or_assoc]
      refine or_congr_right ?_
      rw [hpg] at hpage hnext ⊢
      omega
    · rw [loadFile, if_neg hlt] at hrun
      cases hrun
      refine ⟨by omega, ?_⟩
      rw [put_nil (by omega)]
      exact h.congr fun n => ⟨.inl, fun hor => hor.resolve_right fun hcon => hlt hcon.1⟩

/-! ## The BSS of a segment -/

theorem le_pageUp (a : Nat) : a ≤ pageUp a := by
  show a ≤ (a + (2 ^ 12 - 1)) / 2 ^ 12 * 2 ^ 12
  omega

/-- **The full new pages.** -/
theorem zeroPages_ok (hv : v ∈ (mm m).mmapList) (hstop : ph.stopMem ≤ v.vmEnd) (htop : v.vmEnd ≤ userTop) :
    ∀ fuel start N k (s s' : Exec), Filling Q x L m N k mm s → start % pgsize = 0 → v.vmStart ≤ start →
    (∀ n, start ≤ n * pgsize → n * pgsize < ph.stopMem → Q n ph.perm) →
    (∀ n, start ≤ n * pgsize → n * pgsize < ph.stopMem → ¬ N n) → zeroPages ph (mm m).pgdir fuel start s = .ok () s' →
    Filling Q x L m (fun n => N n ∨ (start ≤ n * pgsize ∧ n * pgsize < ph.stopMem)) (k.put start (pageUp ph.stopMem) fun _ => 0)
      mm s' := by
  have hpg : pgsize = 4096 := rfl
  have hup : pageUp ph.stopMem = (ph.stopMem + 4095) / 4096 * 4096 := rfl
  intro fuel
  induction fuel with
  | zero => exact fun start N k s s' _ _ _ _ _ hrun => nomatch hrun
  | succ fuel ih =>
    intro start N k s s' h hal hstart hQ hfresh hrun
    rw [hpg] at hal
    rw [zeroPages] at hrun
    by_cases hlt : start < ph.stopMem
    · rw [if_pos hlt] at hrun
      obtain ⟨page, s1, halloc, hrun⟩ := Proc.bind_eq_ok.mp hrun
      cases page with
      | none => cases hrun
      | some p =>
        obtain ⟨_, s2, hcopy, hrun⟩ := Proc.bind_eq_ok.mp hrun
        have hpos : start / pgsize * pgsize + 0 = start := by
          rw [hpg]
          omega
        have hno : ¬ N (start / pgsize) := hfresh (start / pgsize) (by omega) (by omega)
        have hcon : v.Contains start := ⟨hstart, by omega⟩
        have hperm : Q (start / pgsize) ph.perm := hQ (start / pgsize) (by omega) (by omega)
        obtain ⟨h1, hp⟩ := h.alloc hv hcon hno hperm halloc
        have hn : start / pgsize < userPages := page_lt (by omega)
        have hfit : 0 + pgsize ≤ pgsize := (Nat.zero_add pgsize).le
        have h2 := h1.write hn hp _ _ hfit hcopy
        rw [hpos] at h2
        have h3 := ih _ _ _ s2 s' h2 (by rw [hpg]; omega) (by omega) (fun n hlo => hQ n (by omega)) (by
          rintro n hlo hhi (hn | rfl)
          · exact hfresh n (by omega) hhi hn
          · rw [hpg] at hlo
            omega) hrun
        rw [put_append (by omega) (by rw [hup, hpg]; omega)] at h3
        refine h3.congr fun n => ?_
        rw [or_assoc]
        refine or_congr_right ?_
        rw [hpg]
        omega
    · rw [if_neg hlt] at hrun
      cases hrun
      rw [put_nil (by rw [hup]; omega)]
      exact h.congr fun n => ⟨.inl, fun hor => hor.resolve_right fun hcon => by omega⟩

/-- What `get_pte` finds without `create`: an entry, if there is one. -/
theorem getPte_leaf (t : PageMem) (d : Nat) (hla : la < userTop) : ∃ ptep, getPte d la false t = .ok ptep t ∧
    match ptep with
    | none        => t.maps d (la / pgsize) = none
    | some (a, i) => t.table a i = t.leaf d (la / pgsize) := by
  refine ⟨_, getPte_false t d hla, ?_⟩
  cases htab : t.tab d (ptSlot (la / pgsize)) with
  | none =>
    show t.maps d (la / pgsize) = none
    rw [PageMem.maps, leaf_of_none htab]
    rfl
  | some pt => exact (leaf_of_tab htab).symm

/-- **The rest of the current page**, if there is such a page. -/
theorem zeroTail_run {d : Nat} (hla : la < userTop) : zeroTail d la s =
    match s.vm.mem.maps d (la / pgsize) with
    | some p => copyToPage p (la % pgsize) (fun _ => 0) 0 (pgsize - la % pgsize) s
    | none   => .ok () s := by
  obtain ⟨ptep, hget, hfound⟩ := getPte_leaf s.vm.mem d hla
  have hin : inVm (inMem (getPte d la false)) s = .ok ptep s := by
    rw [inVm, inMem, Proc.zoom_ok hget]
    rfl
  rw [zeroTail, Proc.bind_ok hin]
  cases ptep with
  | none =>
    change s.vm.mem.maps d (la / pgsize) = none at hfound
    rw [hfound]
    rfl
  | some e =>
    change s.vm.mem.table e.1 e.2 = _ at hfound
    show (if (s.vm.mem.table e.1 e.2).v = true then
      copyToPage (s.vm.mem.table e.1 e.2).ppn (la % pgsize) (fun _ => 0) 0 (pgsize - la % pgsize) else pure () : ExecM Unit) s = _
    rw [hfound, PageMem.maps]
    split
    · rfl
    · rfl

theorem zeroTail_ok (h : Filling Q x L m N k mm s) (hla : la < userTop) (hrun : zeroTail (mm m).pgdir la s = .ok () s') :
    (N (la / pgsize) → Filling Q x L m N (k.put la (la - la % pgsize + pgsize) fun _ => 0) mm s') ∧
      (¬ N (la / pgsize) → s' = s) := by
  have hn := page_lt hla
  have hpg : pgsize = 4096 := rfl
  rw [zeroTail_run hla] at hrun
  have hmapped := h.mapped (la / pgsize) hn
  rw [h.areas] at hmapped
  cases hp : s.vm.mem.maps (mm m).pgdir (la / pgsize) with
  | none =>
    rw [hp] at hrun hmapped
    cases hrun
    exact ⟨fun hN => absurd rfl (hmapped.mpr hN), fun _ => rfl⟩
  | some p =>
    rw [hp] at hrun hmapped
    refine ⟨fun _ => ?_, fun hno => absurd (hmapped.mp (Option.some_ne_none p)) hno⟩
    have h1 := h.write hn hp _ _ (by rw [hpg]; omega) hrun
    have hlo : la / pgsize * pgsize + la % pgsize = la := by
      rw [hpg]
      omega
    have hhi : la / pgsize * pgsize + la % pgsize + (pgsize - la % pgsize) = la - la % pgsize + pgsize := by
      rw [hpg]
      omega
    rw [hhi, hlo] at h1
    exact h1

/-- **Handle BSS.** -/
theorem loadBss_ok (hv : v ∈ (mm m).mmapList) (hstop : ph.stopMem ≤ v.vmEnd) (htop : v.vmEnd ≤ userTop) (h : Filling Q x L m N k mm s)
    (hbss : ph.stop < ph.stopMem) (hstart : v.vmStart ≤ start) (hlt : start < userTop)
    (hQ : ∀ n, start ≤ n * pgsize → n * pgsize < ph.stopMem → Q n ph.perm)
    (hfresh : ∀ n, start ≤ n * pgsize → n * pgsize < ph.stopMem → ¬ N n) (hrun : loadBss ph (mm m).pgdir start s = .ok () s') :
    (N (start / pgsize) → start ≤ ph.stopMem → Filling Q x L m (fun n => N n ∨ (start ≤ n * pgsize ∧ n * pgsize < ph.stopMem))
        (k.put start (pageUp ph.stopMem) fun _ => 0) mm s') ∧
      (¬ N (start / pgsize) → Filling Q x L m (fun n => N n ∨ (start ≤ n * pgsize ∧ n * pgsize < ph.stopMem))
        (k.put (pageUp start) (pageUp ph.stopMem) fun _ => 0) mm s') := by
  have hpg : pgsize = 4096 := rfl
  have hup : ∀ a, pageUp a = (a + 4095) / 4096 * 4096 := fun a => rfl
  have htop' : userTop = 2 ^ 31 := rfl
  rw [loadBss, if_pos hbss] at hrun
  by_cases hal : start % pgsize = 0
  · rw [if_neg (not_not_intro hal)] at hrun
    have h1 := zeroPages_ok hv hstop htop _ start N k s s' h hal hstart hQ hfresh hrun
    have hsame : pageUp start = start := by
      rw [hpg] at hal
      rw [hup]
      omega
    rw [hsame]
    exact ⟨fun _ _ => h1, fun _ => h1⟩
  · rw [if_pos hal] at hrun
    obtain ⟨_, s1, htail, hrun⟩ := Proc.bind_eq_ok.mp hrun
    obtain ⟨hyes, hno⟩ := zeroTail_ok h hlt htail
    have hround : roundup start pgsize = pageUp start := by
      have hmod : (start + 4096 - 1) % 2 ^ 64 = start + 4095 := by omega
      show (start + 4096 - 1) % 2 ^ 64 - (start + 4096 - 1) % 2 ^ 64 % 4096 = (start + 4095) / 4096 * 4096
      rw [hmod]
      omega
    have hend : start - start % pgsize + pgsize = pageUp start := by
      rw [hpg] at hal ⊢
      rw [hup]
      omega
    rw [hround] at hrun
    rw [hend] at hyes
    -- the pages from here on are those behind the current one
    have hnext : ∀ n, pageUp start ≤ n * pgsize ↔ start ≤ n * pgsize := by
      intro n
      rw [hup, hpg]
      omega
    have hzero : ∀ k, Filling Q x L m N k mm s1 → Filling Q x L m (fun n => N n ∨ (start ≤ n * pgsize ∧ n * pgsize < ph.stopMem))
        (k.put (pageUp start) (pageUp ph.stopMem) fun _ => 0) mm s' := by
      intro k h1
      refine (zeroPages_ok hv hstop htop _ _ N k s1 s' h1 ?_ ?_ ?_ ?_ hrun).congr fun n => ?_
      · rw [hup, hpg]
        omega
      · exact hstart.trans (le_pageUp start)
      · exact fun n hlo => hQ n ((hnext n).mp hlo)
      · exact fun n hlo => hfresh n ((hnext n).mp hlo)
      · rw [hnext]
    constructor
    · intro hN hle
      have h2 := hzero _ (hyes hN)
      rw [put_append (le_pageUp start) (by rw [hup, hup]; omega)] at h2
      exact h2
    · intro hN
      rw [hno hN] at hzero
      exact hzero k h

/-! ## Segments -/

/-- The end of an area that `mm_map` accepts. -/
theorem mapEnd_eq {a addr : Nat} (h : UserAccess a (mapEnd addr len)) : mapEnd addr len = pageUp ((addr + len) % 2 ^ 64) := by
  have hlt : a < (((addr + len) % 2 ^ 64 + 4096 - 1) % 2 ^ 64) - (((addr + len) % 2 ^ 64 + 4096 - 1) % 2 ^ 64) % 4096 := h.2.1
  show (((addr + len) % 2 ^ 64 + 4096 - 1) % 2 ^ 64) - (((addr + len) % 2 ^ 64 + 4096 - 1) % 2 ^ 64) % 4096 =
    ((addr + len) % 2 ^ 64 + 4095) / 4096 * 4096
  omega

/-- The pages of the area -/
def ProgHdr.AreaPages (ph : ProgHdr) (n : Nat) : Prop := mapStart ph.pVa ≤ n * pgsize ∧ n * pgsize < mapEnd ph.pVa ph.pMemsz

/-- What is known of a segment that has been loaded -/
structure ProgHdr.Loads (ph : ProgHdr) : Prop where
  small : ph.Small
  sizes : ph.pFilesz ≤ ph.pMemsz
  plain : ph.pVa < ph.stop → ¬ ph.Wraps
  user : UserAccess (mapStart ph.pVa) (mapEnd ph.pVa ph.pMemsz)

theorem ProgHdr.Loads.ordered (h : ph.Loads) (hlt : ph.pVa < ph.stop) : ph.stop ≤ ph.stopMem := ph.stop_le h.sizes (h.plain hlt)

theorem ProgHdr.Loads.pages_area (h : ph.Loads) (hn : ph.Pages n) : ph.AreaPages n := by
  have hend := mapEnd_eq h.user
  have hup : pageUp ((ph.pVa + ph.pMemsz) % 2 ^ 64) = ((ph.pVa + ph.pMemsz) % 2 ^ 64 + 4095) / 4096 * 4096 := rfl
  have hstart : mapStart ph.pVa = ph.pVa - ph.pVa % 4096 := rfl
  have hpg : pgsize = 4096 := rfl
  obtain ⟨hlo, hhi⟩ := hn
  have hhi' : n * pgsize < (ph.pVa + ph.pMemsz) % 2 ^ 64 := hhi
  rw [ProgHdr.AreaPages, hend, hup, hstart]
  rw [hpg] at hlo hhi' ⊢
  refine ⟨?_, by omega⟩
  split at hlo <;> omega

/-- A segment that wraps begins in the page that it ends in. -/
theorem ProgHdr.not_wraps (hs : ph.Small) (hal : ph.pVa % pgsize = 0) (hac : UserAccess (mapStart ph.pVa) (mapEnd ph.pVa ph.pMemsz)) :
    ¬ ph.Wraps := by
  obtain ⟨-, hva, hsz⟩ := hs
  have hend := mapEnd_eq hac
  have hal' : ph.pVa % 4096 = 0 := hal
  have huser : ph.pVa - ph.pVa % 4096 < mapEnd ph.pVa ph.pMemsz := hac.2.1
  have hup : pageUp ((ph.pVa + ph.pMemsz) % 2 ^ 64) = ((ph.pVa + ph.pMemsz) % 2 ^ 64 + 4095) / 4096 * 4096 := rfl
  intro hwraps
  have hwraps' : 2 ^ 64 ≤ ph.pVa + ph.pMemsz := hwraps
  omega

/-- The area of the segment is `v`, apart from the pages `N`. -/
structure ProgHdr.MappedBy (ph : ProgHdr) (v : Vma) (N : Nat → Prop) : Prop where
  start : v.vmStart = ph.pVa - ph.pVa % 4096
  va_lt : ph.pVa < v.vmEnd
  stop_le : ph.stop ≤ v.vmEnd
  stopMem_le : ph.stopMem ≤ v.vmEnd
  top : v.vmEnd ≤ userTop
  ordered : ph.pVa < ph.stop → ph.stop ≤ ph.stopMem
  fresh : ∀ n, ph.pVa / pgsize ≤ n → n * pgsize < ph.stopMem → ¬ N n
  first : ¬ N (ph.pVa / pgsize)

/-- The pages that file bytes are written to -/
def ProgHdr.FilePages (ph : ProgHdr) (n : Nat) : Prop := ph.pVa < ph.stop ∧ ph.pVa / pgsize ≤ n ∧ n * pgsize < ph.stop

/-- Then come those of the BSS. -/
theorem ProgHdr.pages_iff (hbss : ph.stop < ph.stopMem) :
    (N n ∨ ph.FilePages n) ∨ (max ph.pVa ph.stop ≤ n * pgsize ∧ n * pgsize < ph.stopMem) ↔ N n ∨ ph.Pages n := by
  have hpg : pgsize = 4096 := rfl
  rw [or_assoc, ProgHdr.FilePages, ProgHdr.Pages, hpg]
  refine or_congr_right ?_
  by_cases hread : ph.pVa < ph.stop
  · rw [if_pos hread]
    omega
  · rw [if_neg hread]
    omega

/-- The area that `mm_map` has made for the segment. -/
theorem ProgHdr.Loads.mappedBy (h : ph.Loads) (hvs : v.vmStart = mapStart ph.pVa) (hve : v.vmEnd = mapEnd ph.pVa ph.pMemsz)
    (hnew : ∀ n, ph.AreaPages n → ¬ N n) : ph.MappedBy v N := by
  have hpg : pgsize = 4096 := rfl
  have hend := mapEnd_eq h.user
  have hup : ∀ a, pageUp a = (a + 4095) / 4096 * 4096 := fun a => rfl
  have hstart : mapStart ph.pVa = ph.pVa - ph.pVa % 4096 := rfl
  have hmem : ph.stopMem = (ph.pVa + ph.pMemsz) % 2 ^ 64 := rfl
  obtain ⟨hlo, hlt, hhi⟩ := h.user
  have harea : ∀ n, ph.pVa / 4096 ≤ n → n * 4096 < mapEnd ph.pVa ph.pMemsz → ¬ N n := by
    intro n h1 h2
    refine hnew n ⟨?_, ?_⟩
    · rw [hstart, hpg]
      omega
    · rw [hpg]
      exact h2
  rw [hstart] at hvs hlt
  rw [← hmem, hup] at hend
  have hord := h.ordered
  have hva : ph.pVa < v.vmEnd := by omega
  refine ⟨hvs, hva, ?_, by omega, by omega, hord, fun n h1 h2 => ?_, ?_⟩
  · by_cases hread : ph.pVa < ph.stop
    · have hle := hord hread
      omega
    · omega
  · rw [hpg] at h1 h2
    exact harea n h1 (by omega)
  · rw [hpg]
    exact harea _ (Nat.le_refl _) (by omega)

namespace ProgHdr.MappedBy

/-- The file bytes -/
theorem content {fuel r : Nat} (hb : ph.MappedBy v N) (hv : v ∈ (mm m).mmapList) (hs : ph.Small) (hQ : ∀ n, ph.Pages n → Q n ph.perm)
    (h : Filling Q x L m N k mm s) (hrun : loadFile file ph (mm m).pgdir fuel ph.pVa (rounddown ph.pVa pgsize) s = .ok r s') :
    r = max ph.pVa ph.stop ∧
      Filling Q x L m (fun n => N n ∨ ph.FilePages n) (k.put ph.pVa ph.stop (ph.fileByte file.bytes)) mm s' := by
  have hoff := hs.1
  have hperm : ph.pVa < ph.stop → ∀ n, ph.pVa / pgsize ≤ n → n * pgsize < ph.stop → Q n ph.perm := by
    intro hread n hlo hhi
    have hle := hb.ordered hread
    refine hQ n ⟨?_, by omega⟩
    rw [if_pos hread]
    exact hlo
  refine loadFile_ok hv hb.stop_le hb.top hperm fuel _ _ r N k s s' h (Nat.le_refl _) (fun hread => ?_) hrun
  have hle := hb.ordered hread
  exact ⟨rfl, by omega, hb.start.le, fun n hlo hhi => hb.fresh n hlo (by omega)⟩

/-- **The BSS** behind the file bytes -/
theorem bss (hb : ph.MappedBy v N) (hv : v ∈ (mm m).mmapList) (hQ : ∀ n, ph.Pages n → Q n ph.perm)
    (h : Filling Q x L m (fun n => N n ∨ ph.FilePages n) k mm s) (hbss : ph.stop < ph.stopMem)
    (hrun : loadBss ph (mm m).pgdir (max ph.pVa ph.stop) s = .ok () s') :
    Filling Q x L m (fun n => N n ∨ ph.Pages n) (k.put ph.bssStart (pageUp ph.stopMem) fun _ => 0) mm s' := by
  have hpg : pgsize = 4096 := rfl
  have hup : ∀ a, pageUp a = (a + 4095) / 4096 * 4096 := fun a => rfl
  have hstart := hb.start
  have hva := hb.va_lt
  have hstop := hb.stop_le
  have htop := hb.top
  have hnone : ∀ n, max ph.pVa ph.stop ≤ n * pgsize → n * pgsize < ph.stopMem → ¬ (N n ∨ ph.FilePages n) := by
    rintro n hlo hhi (hN | ⟨-, -, hfile⟩)
    · refine hb.fresh n ?_ hhi hN
      rw [hpg] at hlo ⊢
      omega
    · omega
  have hperm : ∀ n, max ph.pVa ph.stop ≤ n * pgsize → n * pgsize < ph.stopMem → Q n ph.perm := by
    intro n hlo hhi
    exact hQ n (((ProgHdr.pages_iff hbss).mp (.inr ⟨hlo, hhi⟩)).resolve_left fun hN => hnone n hlo hhi (.inl hN))
  have hmem := hb.stopMem_le
  obtain ⟨htail, hno⟩ := loadBss_ok hv hmem htop h hbss (by omega) (by omega) hperm hnone hrun
  rw [ProgHdr.bssStart]
  by_cases hread : ph.pVa < ph.stop
  · have hmax : max ph.pVa ph.stop = ph.stop := by omega
    rw [hmax] at htail hno
    rw [if_pos hread]
    by_cases hin : N (ph.stop / pgsize) ∨ ph.FilePages (ph.stop / pgsize)
    · refine (htail hin hbss.le).congr fun n => ?_
      rw [← ProgHdr.pages_iff hbss, hmax]
    · -- the file bytes end at the end of a page
      have hal : pageUp ph.stop = ph.stop := by
        rw [not_or, ProgHdr.FilePages] at hin
        have hend := hin.2
        rw [hpg] at hend
        rw [hup]
        omega
      have h' := hno hin
      rw [hal] at h'
      refine h'.congr fun n => ?_
      rw [← ProgHdr.pages_iff hbss, hmax]
  · have hmax : max ph.pVa ph.stop = ph.pVa := by omega
    rw [hmax] at hno
    rw [if_neg hread]
    have hout : ¬ (N (ph.pVa / pgsize) ∨ ph.FilePages (ph.pVa / pgsize)) := by
      rintro (hN | ⟨hread', -⟩)
      · exact hb.first hN
      · exact hread hread'
    refine (hno hout).congr fun n => ?_
    rw [← ProgHdr.pages_iff hbss, hmax]

/-- Without BSS, the pages are those of the file bytes. -/
theorem noBss (hb : ph.MappedBy v N) (h : Filling Q x L m (fun n => N n ∨ ph.FilePages n) k mm s) (hbss : ¬ ph.stop < ph.stopMem) :
    Filling Q x L m (fun n => N n ∨ ph.Pages n) k mm s := by
  have hpg : pgsize = 4096 := rfl
  refine h.congr fun n => or_congr_right ?_
  rw [ProgHdr.FilePages, ProgHdr.Pages, hpg]
  by_cases hread : ph.pVa < ph.stop
  · have hle := hb.ordered hread
    rw [if_pos hread]
    omega
  · rw [if_neg hread]
    omega

end ProgHdr.MappedBy

/-- **A segment.** Its area is apart from all others. -/
theorem loadSegment_ok (h : ProgLoaded Q x L m N k s.vm) (hs : ph.Small) (hw : ph.Filled ∨ ¬ ph.Wraps)
    (hQ : ∀ n, ph.Pages n → Q n ph.perm) (hrun : loadSegment file m ph s = .ok () s') :
    ProgLoaded Q x L m (fun n => N n ∨ ph.Pages n) (ph.image file.bytes k) s'.vm ∧ ph.Loads ∧
      (∀ n, s.vm.InArea m n → s'.vm.InArea m n) ∧ ∀ n, ph.AreaPages n → ¬ s.vm.InArea m n ∧ s'.vm.InArea m n := by
  rw [loadSegment] at hrun
  split at hrun
  · cases hrun
  · next hsz =>
    obtain ⟨_, s1, hmap, hrun⟩ := Proc.bind_eq_ok.mp hrun
    obtain ⟨v1, hmap1, rfl⟩ := inVm_ok hmap
    rw [Proc.get_bind] at hrun
    obtain ⟨h1, hac, ⟨v, hv, hvs, hve⟩, hkeep, hapart⟩ := h.map hmap1
    obtain ⟨r, s2, hfile, hbss⟩ := Proc.bind_eq_ok.mp hrun
    have hplain : ph.pVa < ph.stop → ¬ ph.Wraps := fun hread => hw.elim (fun hf => ProgHdr.not_wraps hs (hf hread).1 hac) id
    have hloads : ph.Loads := ⟨hs, Nat.le_of_not_lt hsz, hplain, hac⟩
    have hb : ph.MappedBy v N := hloads.mappedBy hvs hve fun n hn hN => hapart n hn.1 hn.2 (h.inArea hN)
    have hfilling : Filling Q x L m N k v1.mm { s with vm := v1 } := ⟨h1, rfl⟩
    obtain ⟨rfl, h2⟩ := hb.content hv hs hQ hfilling hfile
    have h3 : Filling Q x L m (fun n => N n ∨ ph.Pages n) (ph.image file.bytes k) v1.mm s' := by
      rw [ProgHdr.image]
      by_cases hlt : ph.stop < ph.stopMem
      · rw [if_pos hlt]
        exact hb.bss hv hQ h2 hlt hbss
      · rw [loadBss, if_neg hlt] at hbss
        cases hbss
        rw [if_neg hlt]
        exact hb.noBss h2 hlt
    have hsame : ∀ n, s'.vm.InArea m n ↔ v1.InArea m n := fun n => by rw [Vm.InArea, h3.areas, Vm.InArea]
    refine ⟨h3.toProgLoaded, hloads, fun n hn => (hsame n).mpr (hkeep n hn), fun n hn => ?_⟩
    exact ⟨hapart n hn.1 hn.2, (hsame n).mpr ⟨v, hv, hvs.trans_le hn.1, hve ▸ hn.2⟩⟩

/-- The pages of a list of segments -/
def SegPages (phs : List ProgHdr) (n : Nat) : Prop := ∃ ph ∈ phs, ph.Pages n

theorem segPages_cons {phs : List ProgHdr} : SegPages (ph :: phs) n ↔ ph.Pages n ∨ SegPages phs n := by
  constructor
  · rintro ⟨p, hp, hn⟩
    rcases List.mem_cons.mp hp with rfl | hp
    · exact .inl hn
    · exact .inr ⟨p, hp, hn⟩
  · rintro (hn | ⟨p, hp, hn⟩)
    · exact ⟨ph, List.mem_cons_self, hn⟩
    · exact ⟨p, List.mem_cons_of_mem ph hp, hn⟩

/-- The segments have been loaded, and no page lies in two of their areas. -/
structure SegsLoaded (phs : List ProgHdr) : Prop where
  loads : ∀ ph ∈ phs, ph.Loads
  apart : phs.Pairwise fun a b => ∀ n, a.AreaPages n → ¬ b.AreaPages n

/-- **The segments**, one after the other. -/
theorem loadSegments_ok {phoff : Nat} : ∀ c i N k (s s' : Exec), ProgLoaded Q x L m N k s.vm →
    (∀ ph ∈ segHdrs file.bytes phoff c i, ph.Filled ∨ ¬ ph.Wraps) →
    (∀ ph ∈ segHdrs file.bytes phoff c i, ∀ n, ph.Pages n → Q n ph.perm) → loadSegments file m phoff c i s = .ok () s' →
    ProgLoaded Q x L m (fun n => N n ∨ SegPages (segHdrs file.bytes phoff c i) n)
      (segsImage file.bytes (segHdrs file.bytes phoff c i) k) s'.vm ∧
    SegsLoaded (segHdrs file.bytes phoff c i) ∧ (∀ n, s.vm.InArea m n → s'.vm.InArea m n) ∧
    (∀ ph ∈ segHdrs file.bytes phoff c i, ∀ n, ph.AreaPages n → ¬ s.vm.InArea m n ∧ s'.vm.InArea m n) ∧
    (Full pgsize (fun n => N n ∨ SegPages (segHdrs file.bytes phoff c i) n)
        (segsImage file.bytes (segHdrs file.bytes phoff c i) k) ↔
      Full pgsize N k ∧ ∀ ph ∈ segHdrs file.bytes phoff c i, ph.Filled) := by
  intro c
  induction c with
  | zero =>
    intro i N k s s' h _ _ hrun
    cases hrun
    have hno : ∀ n, ¬ SegPages [] n := fun n ⟨ph, hph, _⟩ => absurd hph List.not_mem_nil
    have hsame : (fun n => N n ∨ SegPages [] n) = N := funext fun n => propext (or_iff_left (hno n))
    rw [segHdrs, segsImage, hsame]
    refine ⟨h, ⟨fun ph hph => absurd hph List.not_mem_nil, .nil⟩, fun n hn => hn, fun ph hph => absurd hph List.not_mem_nil, ?_⟩
    exact (and_iff_left fun ph hph => absurd hph List.not_mem_nil).symm
  | succ c ih =>
    intro i N k s s' h hw hQ hrun
    rw [loadSegments] at hrun
    obtain ⟨ph, s1, hhdr, hgo⟩ := Proc.bind_eq_ok.mp hrun
    obtain ⟨hph, rfl⟩ := readHdr_ok hhdr
    by_cases htype : ph.pType = elfPtLoad
    · rw [if_neg (not_not_intro htype)] at hgo
      have hlist : segHdrs file.bytes phoff (c + 1) i = ph :: segHdrs file.bytes phoff c (i + 1) := by
        rw [segHdrs, ← hph, if_neg (not_not_intro htype)]
      rw [hlist] at hw hQ ⊢
      obtain ⟨_, s2, hseg, hrest⟩ := Proc.bind_eq_ok.mp hgo
      have hsmall : ph.Small := hph ▸ ProgHdr.small_progHdr _
      obtain ⟨h1, hloads, hkeep, harea⟩ := loadSegment_ok h hsmall (hw ph List.mem_cons_self) (hQ ph List.mem_cons_self) hseg
      obtain ⟨h2, hsegs, hkeep', harea', hfull⟩ := ih (i + 1) _ _ s2 s' h1 (fun p hp => hw p (List.mem_cons_of_mem ph hp))
        (fun p hp => hQ p (List.mem_cons_of_mem ph hp)) hrest
      have hall : ∀ n, (N n ∨ ph.Pages n) ∨ SegPages (segHdrs file.bytes phoff c (i + 1)) n ↔
          N n ∨ SegPages (ph :: segHdrs file.bytes phoff c (i + 1)) n := by
        intro n
        rw [segPages_cons, or_assoc]
      have hpages : ∀ n, ph.Pages n → ¬ N n := fun n hn hN => (harea n (hloads.pages_area hn)).1 (h.inArea hN)
      refine ⟨h2.congr hall, ⟨?_, ?_⟩, fun n hn => hkeep' n (hkeep n hn), ?_, ?_⟩
      · exact List.forall_mem_cons.mpr ⟨hloads, hsegs.loads⟩
      · refine List.pairwise_cons.mpr ⟨fun p hp n h1 h2 => ?_, hsegs.apart⟩
        exact (harea' p hp n h2).1 (harea n h1).2
      · refine List.forall_mem_cons.mpr ⟨fun n hn => ⟨(harea n hn).1, hkeep' n (harea n hn).2⟩, fun p hp n hn => ?_⟩
        exact ⟨fun hin => (harea' p hp n hn).1 (hkeep n hin), (harea' p hp n hn).2⟩
      · have hord := hloads.ordered
        have hone : Full pgsize (fun n => N n ∨ ph.Pages n) (ph.image file.bytes k) ↔ Full pgsize N k ∧ ph.Filled := by
          rw [full_or (fun a ha => by rw [ProgHdr.image_out hord ha]) hpages]
          exact and_congr_right fun _ => ProgHdr.image_full hord fun a ha => h.within.unknown (hpages _ ha)
        rw [segsImage, List.forall_mem_cons, ← and_assoc, ← hone, ← hfull]
        have hsame : (fun n => N n ∨ SegPages (ph :: segHdrs file.bytes phoff c (i + 1)) n) =
            fun n => (N n ∨ ph.Pages n) ∨ SegPages (segHdrs file.bytes phoff c (i + 1)) n := funext fun n => propext (hall n).symm
        rw [hsame]
    · rw [if_pos htype] at hgo
      have hlist : segHdrs file.bytes phoff (c + 1) i = segHdrs file.bytes phoff c (i + 1) := by
        rw [segHdrs, ← hph, if_pos htype]
      rw [hlist] at hw hQ ⊢
      exact ih (i + 1) N k _ s' h hw hQ hgo

/-! ## The stack -/

/-- **Setup User Stack.** The four pages at the top of the new area are mapped, and no other page of it. -/
theorem setupStack_ok (h : ProgLoaded Q x L m N k s.vm) (hQ : ∀ n, StackPages n → Q n pteUser) (hrun : setupStack m s = .ok () s') :
    ProgLoaded Q x L m (fun n => N n ∨ StackPages n) k s'.vm ∧
      ∀ n, ustackTop - ustackSize ≤ n * pgsize → n * pgsize < ustackTop → ¬ s.vm.InArea m n := by
  have hpg : pgsize = 4096 := rfl
  have htop : ustackTop = 0x80000000 := rfl
  rw [setupStack] at hrun
  obtain ⟨_, s1, hmap, hrun⟩ := Proc.bind_eq_ok.mp hrun
  obtain ⟨v1, hmap1, rfl⟩ := inVm_ok hmap
  rw [Proc.get_bind] at hrun
  obtain ⟨h1, -, ⟨v, hv, hvs, hve⟩, -, hnew⟩ := h.map hmap1
  have hstart : mapStart (ustackTop - ustackSize) = 0x7ff00000 := by decide
  have hend : mapEnd (ustackTop - ustackSize) ustackSize = 0x80000000 := by decide
  rw [hstart] at hnew hvs
  rw [hend] at hnew hve
  have hpage : ∀ N (s s' : Exec) j, 0 < j → j ≤ 4 → Filling Q x L m N k v1.mm s → ¬ N (0x80000 - j) →
      stackPage (v1.mm m).pgdir j s = .ok () s' → Filling Q x L m (fun n => N n ∨ n = 0x80000 - j) k v1.mm s' := by
    intro N s s' j hj hj' h hno hrun
    obtain ⟨page, s1, halloc, hrun⟩ := Proc.bind_eq_ok.mp hrun
    have hat : (ustackTop - j * pgsize) / pgsize = 0x80000 - j := by
      rw [htop, hpg]
      omega
    cases page with
    | none => cases hrun
    | some p =>
      cases hrun
      have hcon : v.Contains (ustackTop - j * pgsize) := by
        refine ⟨?_, ?_⟩ <;> rw [htop, hpg] <;> omega
      have hstack : StackPages (0x80000 - j) := by
        refine ⟨?_, ?_⟩ <;> rw [htop, hpg] <;> omega
      rw [← hat] at hno hstack ⊢
      exact (h.alloc hv hcon hno (hQ _ hstack) halloc).1
  obtain ⟨_, s2, hp1, hrun⟩ := Proc.bind_eq_ok.mp hrun
  obtain ⟨_, s3, hp2, hrun⟩ := Proc.bind_eq_ok.mp hrun
  obtain ⟨_, s4, hp3, hp4⟩ := Proc.bind_eq_ok.mp hrun
  have hno : ∀ j, 0 < j → j ≤ 4 → ¬ N (0x80000 - j) := by
    intro j hj hj' hN
    refine hnew _ ?_ ?_ (h.inArea hN) <;> rw [hpg] <;> omega
  have f1 := hpage N _ s2 1 (by omega) (by omega) ⟨h1, rfl⟩ (hno 1 (by omega) (by omega)) hp1
  have f2 := hpage _ s2 s3 2 (by omega) (by omega) f1 (not_or.mpr ⟨hno 2 (by omega) (by omega), by omega⟩) hp2
  have f3 := hpage _ s3 s4 3 (by omega) (by omega) f2
    (not_or.mpr ⟨not_or.mpr ⟨hno 3 (by omega) (by omega), by omega⟩, by omega⟩) hp3
  have f4 := hpage _ s4 s' 4 (by omega) (by omega) f3
    (not_or.mpr ⟨not_or.mpr ⟨not_or.mpr ⟨hno 4 (by omega) (by omega), by omega⟩, by omega⟩, by omega⟩) hp4
  refine ⟨f4.toProgLoaded.congr fun n => ?_, fun n hn hn' => hnew n hn hn'⟩
  rw [StackPages, or_assoc, or_assoc, or_assoc, htop, hpg]
  refine or_congr_right ?_
  omega

end Ucore
