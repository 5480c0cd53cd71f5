import Mellivora.Kernel.Tmpfs
import Mellivora.Kernel.Proofs.PmmSeedProofs
import Mellivora.Kernel.Proofs.VfsProofs

/-!
# Proofs: files in memory

Names stay unique as long as no free entry stands before the one that an open looks for, and a
descriptor stays on its file as long as no file is unlinked under it.
-/

namespace Mellivora

open Outcome Runs Function List Buffer Nat Bool

/-! ## Bytes in memory -/

section Memory

variable {mem : Buffer} {addr off len : Nat} {data : List UInt8}

theorem write_before (h : off < addr) : mem.write addr data off = mem off := if_neg (by omega)

theorem write_behind (h : addr + data.length ≤ off) : mem.write addr data off = mem off := by
  rw [write, if_pos (by omega), getElem?_eq_none (by omega)]
  rfl

theorem bytes_write_apart (h : off + len ≤ addr ∨ addr + data.length ≤ off) :
    (mem.write addr data).bytes off len = mem.bytes off len := by
  refine map_congr_left fun i hi => ?_
  have hlt := mem_range.mp hi
  rcases h with h | h
  · exact write_before (by omega)
  · exact write_behind (by omega)

theorem bytes_write (mem : Buffer) (addr : Nat) (data : List UInt8) :
    (mem.write addr data).bytes addr data.length = data := by
  refine ext_getElem (by simp [bytes]) fun i hi hi' => ?_
  simp [bytes, write, getElem?_eq_getElem hi']

theorem bytes_append (mem : Buffer) (addr len len' : Nat) :
    mem.bytes addr (len + len') = mem.bytes addr len ++ mem.bytes (addr + len) len' := by
  rw [bytes, bytes, bytes, range_add, map_append, map_map]
  congr 1
  refine map_congr_left fun i _ => ?_
  rw [comp_apply, add_assoc]

theorem bytes_slice (mem : Buffer) (addr size pos len : Nat) :
    ((mem.bytes addr size).drop pos).take len = mem.bytes (addr + pos) (min (size - pos) len) := by
  refine ext_getElem (by simp [bytes, min_comm]) fun i hi hi' => ?_
  simp [bytes, add_assoc]

end Memory

/-! ## The table -/

section Table

variable {s : TmpState} {i j : Nat} {f : TmpFile} {name : Name}

theorem TmpState.mem_entries : i ∈ s.entries ↔ i < tmpfsMaxFiles ∧ (s.tmpfsTable i).live := by
  rw [TmpState.entries, mem_filter, mem_range]

theorem TmpState.nodup_entries (s : TmpState) : s.entries.Nodup := nodup_range.filter _

theorem file_setFile_self (s : TmpState) (i : Nat) (f : TmpFile) :
    (s.setFile i f).tmpfsTable i = f := update_self ..

theorem file_setFile_of_ne (h : j ≠ i) (f : TmpFile) :
    (s.setFile i f).tmpfsTable j = s.tmpfsTable j :=
  update_of_ne h ..

theorem mem_entries_create (hi : i < tmpfsMaxFiles) (hlive : f.live) :
    j ∈ (s.setFile i f).entries ↔ j = i ∨ j ∈ s.entries := by
  rw [TmpState.mem_entries, TmpState.mem_entries]
  by_cases hj : j = i
  · rw [hj, file_setFile_self]
    exact ⟨fun _ => .inl rfl, fun _ => ⟨hi, hlive⟩⟩
  · rw [file_setFile_of_ne hj]
    exact (or_iff_right hj).symm

/-- A page more. -/
theorem pages_create (hi : i < tmpfsMaxFiles) (hfree : (s.tmpfsTable i).live = false)
    (hlive : f.live) :
    (s.setFile i f).pages.Perm (f.page :: s.pages) := by
  have hnot : i ∉ s.entries := by
    intro hmem
    rw [TmpState.mem_entries, hfree] at hmem
    exact false_ne_true hmem.2
  have hperm : (s.setFile i f).entries.Perm (i :: s.entries) := by
    refine (perm_ext_iff_of_nodup (TmpState.nodup_entries _)
      (nodup_cons.mpr ⟨hnot, s.nodup_entries⟩)).mpr fun j => ?_
    rw [mem_entries_create hi hlive, mem_cons]
  refine (hperm.map _).trans ?_
  rw [map_cons, file_setFile_self, TmpState.pages, map_congr_left]
  intro j hj
  have hne : j ≠ i := fun heq => hnot (heq ▸ hj)
  rw [file_setFile_of_ne hne]

theorem mem_entries_unlink : j ∈ (s.setFile i {}).entries ↔ j ≠ i ∧ j ∈ s.entries := by
  rw [TmpState.mem_entries, TmpState.mem_entries]
  by_cases hj : j = i
  · rw [hj, file_setFile_self]
    exact ⟨fun h => absurd h.2 false_ne_true, fun h => absurd rfl h.1⟩
  · rw [file_setFile_of_ne hj]
    exact (and_iff_right hj).symm

/-- A page less. -/
theorem pages_unlink (hi : i ∈ s.entries) :
    s.pages.Perm ((s.tmpfsTable i).page :: (s.setFile i {}).pages) := by
  obtain ⟨hlt, hlive⟩ := TmpState.mem_entries.mp hi
  have hfree : ((s.setFile i {}).tmpfsTable i).live = false := by rw [file_setFile_self]
  have hback : (s.setFile i {}).setFile i (s.tmpfsTable i) = s := by
    simp only [TmpState.setFile, update_idem, update_eq_self]
  have hperm := pages_create hlt hfree hlive
  rwa [hback] at hperm

theorem entries_resize (hlive : f.live = (s.tmpfsTable i).live) :
    (s.setFile i f).entries = s.entries := by
  refine filter_congr fun j _ => ?_
  by_cases hj : j = i
  · rw [hj, file_setFile_self, hlive]
  · rw [file_setFile_of_ne hj]

theorem pages_resize (hlive : f.live = (s.tmpfsTable i).live)
    (hptr : f.ptr = (s.tmpfsTable i).ptr) :
    (s.setFile i f).pages = s.pages := by
  rw [TmpState.pages, TmpState.pages, entries_resize hlive]
  refine map_congr_left fun j _ => ?_
  by_cases hj : j = i
  · rw [hj, file_setFile_self, TmpFile.page, TmpFile.page, hptr]
  · rw [file_setFile_of_ne hj]

theorem TmpState.of_tmpfsFind (h : s.tmpfsFind name = some i) :
    i ∈ s.entries ∧ (s.tmpfsTable i).name = name := by
  have hfound := find?_some h
  simp only [and_eq_true, beq_iff_eq] at hfound
  exact ⟨TmpState.mem_entries.mpr ⟨mem_range.mp (mem_of_find?_eq_some h), hfound.1⟩, hfound.2⟩

theorem TmpState.of_freeOrNamed (h : s.freeOrNamed name = some i) : i < tmpfsMaxFiles ∧
    ((s.tmpfsTable i).live → (s.tmpfsTable i).name = name) ∧ ∀ j < i, j ∈ s.entries ∧
    (s.tmpfsTable j).name ≠ name := by
  obtain ⟨hfound, hmem, hbefore⟩ := find?_range_eq_some.mp h
  have hlt := mem_range.mp hmem
  refine ⟨hlt, fun hlive => by simpa [hlive] using hfound, fun j hj => ?_⟩
  have hnone := hbefore j hj
  simp only [Bool.not_or, Bool.not_not, Bool.and_eq_true, Bool.not_eq_true',
    beq_eq_false_iff_ne] at hnone
  exact ⟨TmpState.mem_entries.mpr ⟨hj.trans hlt, hnone.1⟩, hnone.2⟩

end Table

/-! ## Runs -/

section Runs

variable {top : Nat} {X : Set Nat} {others live : List (Nat × Nat)} {r : TmpRun} {s : TmpState}
  {i v : Nat} {name : Name}

/-- The invariant of `/tmp`: its pages are its own, and hold what was written to each file. -/
structure TmpRun.Inv (top : Nat) (X : Set Nat) (others : List (Nat × Nat)) (r : TmpRun) : Prop where
  books : Kept False top X { pmm := r.tmp.pmm, live := r.tmp.pages ++ (r.unlinked ++ others) }
  names : ∀ i ∈ r.tmp.entries, ∀ j ∈ r.tmp.entries, (r.tmp.tmpfsTable i).name =
    (r.tmp.tmpfsTable j).name → i = j
  pages : ∀ i ∈ r.tmp.entries, (r.tmp.tmpfsTable i).ptr % 4096 = 0 ∧
    (r.tmp.tmpfsTable i).size ≤ tmpfsFileMax
  apart : ∀ i ∈ r.tmp.entries, ∀ j ∈ r.tmp.entries, (r.tmp.tmpfsTable i).ptr =
    (r.tmp.tmpfsTable j).ptr → i = j
  opens : ∀ v, r.tmp.IsOpen v → let i := (r.tmp.vfdTable v).realFd
    i ∈ r.tmp.entries ∧ r.opened v = (i, r.filled i)
  contents : ∀ i ∈ r.tmp.entries, let f := r.tmp.tmpfsTable i
    r.tmp.mem.bytes f.ptr f.size = r.contents (i, r.filled i)
  unused : ∀ i n, r.filled i < n → r.contents (i, n) = []

theorem TmpRun.Inv.sound (h : r.Inv top X others) :
    r.Sound := ⟨h.names, fun v hv _ => (h.opens v hv).2, h.contents⟩

/-- The pages of the unlinked files are missing, and nothing else is. -/
theorem TmpRun.Inv.pagesOwned_iff (h : r.Inv top X others) :
    r.PagesOwned X others ↔ r.unlinked = [] := by
  constructor
  · intro howned
    rw [eq_nil_iff_forall_not_mem]
    intro a ha
    have hperm : (r.tmp.pages ++ (r.unlinked ++ others)).Perm
        (a :: (r.tmp.pages ++ (r.unlinked.erase a ++ others))) := by grind
    have hbooks := h.books.perm hperm
    have hX : a.1 ∈ X := hbooks.mem_set (mem_cons_self ..)
    have hpage : a.1 ∈ (liveBlock a).pages := Buddy.Block.page_mem_pages (liveBlock a)
    rcases (howned.cover a.1).mp hX with hfree | ⟨c, hc, hac⟩
    · obtain ⟨b, hb, hab⟩ := hfree
      exact Set.disjoint_left.mp
        (hbooks.sound.apart b hb (liveBlock a) (mem_cons_self ..)) hab hpage
    · obtain ⟨b, hb, rfl⟩ := mem_map.mp hc
      have hmem : b ∈ r.tmp.pages ++ (r.unlinked.erase a ++ others) := by grind
      exact Set.disjoint_left.mp (hbooks.head_disjoint hmem) hpage hac
  · intro hnil
    have hbooks := h.books
    rw [hnil, nil_append] at hbooks
    exact hbooks.sound

/-- The invariant holds before the first call. -/
theorem TmpState.Fresh.inv (h : s.Fresh X others) :
    ∃ top, Arena top X ∧ TmpRun.Inv top X others { tmp := s } := by
  obtain ⟨blank, regions, seeded, calls, hblank, hregions, hseed, rfl, hcalls, hrun⟩ := h.pmm
  have hnone : ∀ i, i ∉ s.entries := by
    intro i hi
    obtain ⟨hlt, hlive⟩ := TmpState.mem_entries.mp hi
    rw [h.empty i hlt] at hlive
    cases hlive
  have hpages : s.pages = [] := by
    rw [TmpState.pages, eq_nil_iff_forall_not_mem.mpr hnone]
    rfl
  refine ⟨blank.pmmMemTop, hregions.arena hblank.pmmMemTop, ?_, fun i hi => absurd hi (hnone i),
    fun i hi => absurd hi (hnone i), fun i hi => absurd hi (hnone i), fun v hv => ?_,
    fun i hi => absurd hi (hnone i), fun _ _ _ => rfl⟩
  · show Kept False _ _ { pmm := s.pmm, live := s.pages ++ ([] ++ others) }
    rw [hpages]
    exact kept_seeded hblank hregions hseed hcalls hrun
  · have hopen := hv.2
    rw [h.closed v hv.1] at hopen
    cases hopen

theorem returns_onPmm {α : Type} {x : PmmM α} {Q : α → TmpState → Prop}
    (h : Returns x (fun a pmm => Q a { s with pmm }) s.pmm) : Returns (onPmm x) Q s := by
  obtain ⟨a, pmm, hrun, hQ⟩ := h
  simp only [onPmm, returns_lift, returns_rules]
  exact ⟨_, hrun, hQ⟩

/-! ### Opening -/

/-- The entry of a name is found, or made in the first free one, or there is none and no page
either. -/
theorem returns_tmpfsFindOrCreate (hbooks : Kept False top X { pmm := s.pmm, live })
    (ha : Arena top X) (name : Name) :
    Returns (tmpfsFindOrCreate name) (fun r s' =>
      (∃ pmm, s' = { s with pmm } ∧ Kept False top X { pmm, live } ∧
        ∀ i, r = some i → s.freeOrNamed name = some i ∧ (s.tmpfsTable i).live) ∨
      ∃ i pmm ptr, r = some i ∧ s.freeOrNamed name = some i ∧ (s.tmpfsTable i).live = false ∧
        ptr % 4096 = 0 ∧ Kept False top X { pmm, live := (ptr / 4096, 1) :: live } ∧
        s' = TmpState.setFile { s with pmm } i
          { live := true, size := 0, ptr, name := name.take (tmpfsNameLen - 1) }) s := by
  simp only [tmpfsFindOrCreate, returns_rules]
  cases hfind : s.freeOrNamed name with
  | none => exact returns_pure.mpr (.inl ⟨s.pmm, rfl, hbooks, nofun⟩)
  | some i =>
  by_cases hlive : (s.tmpfsTable i).live
  · simp only [if_pos hlive, returns_pure]
    refine .inl ⟨s.pmm, rfl, hbooks, fun j hj => ?_⟩
    cases hj
    exact ⟨rfl, hlive⟩
  · simp only [if_neg hlive, returns_bind]
    refine returns_onPmm ((hbooks.returns_allocPage ha).mono ?_)
    rintro ptr pmm (⟨rfl, hkept⟩ | ⟨hne, halign, hkept⟩)
    · rw [if_pos rfl, returns_pure]
      exact .inl ⟨pmm, rfl, hkept, nofun⟩
    · rw [if_neg hne, returns_bind, returns_modify, returns_pure]
      exact .inr ⟨i, pmm, ptr, rfl, rfl, by simpa using hlive, halign, hkept, rfl⟩

theorem returns_openEntry (entry : Option Nat) :
    Returns (openEntry entry) (fun r s' => r = none ∧ s' = s ∨
      ∃ i v e, entry = some i ∧ r = some v ∧
      firstFree s.vfdTable = some v ∧ e.isOpen ∧ e.realFd = i ∧
      s' = { s with vfdTable := update s.vfdTable v e }) s := by
  cases entry with
  | none => exact returns_pure.mpr (.inl ⟨rfl, rfl⟩)
  | some i =>
  simp only [openEntry, returns_rules]
  cases hfree : firstFree s.vfdTable with
  | none => exact returns_pure.mpr (.inl ⟨rfl, rfl⟩)
  | some v =>
    simp only [returns_rules]
    exact .inr ⟨i, v, _, rfl, rfl, rfl, rfl, rfl, rfl⟩

theorem TmpRun.Inv.repaged {pmm : Pmm} (h : r.Inv top X others)
    (hbooks : Kept False top X { pmm, live := r.tmp.pages ++ (r.unlinked ++ others) }) :
    TmpRun.Inv top X others { r with tmp := { r.tmp with pmm } } :=
  { h with books := hbooks }

theorem afterOpen_same {tmp : TmpState} (h : tmp.tmpfsTable = r.tmp.tmpfsTable) :
    r.afterOpen none tmp = { r with tmp } := by
  simp only [TmpRun.afterOpen, h, Bool.not_and_self, Bool.false_eq_true, if_false]

attribute [local grind =] TmpState.IsOpen TmpState.mem_entries update_apply

/-- A new entry has a page of its own. -/
theorem TmpRun.Inv.create {f : TmpFile} {pmm : Pmm} (h : r.Inv top X others)
    (hi : i < tmpfsMaxFiles)
    (hfree : (r.tmp.tmpfsTable i).live = false) (hlive : f.live) (hsize : f.size = 0)
    (halign : f.ptr % 4096 = 0)
    (hbooks : Kept False top X { pmm, live := f.page :: (r.tmp.pages ++ (r.unlinked ++ others)) })
    (hname : ∀ j ∈ r.tmp.entries, (r.tmp.tmpfsTable j).name ≠ f.name) :
    TmpRun.Inv top X others (r.afterOpen none (TmpState.setFile { r.tmp with pmm } i f)) := by
  obtain ⟨-, hnames, hpages, hapart, hopens, hcontents, hunused⟩ := h
  have hptr : ∀ j ∈ r.tmp.entries, f.ptr ≠ (r.tmp.tmpfsTable j).ptr := by
    intro j hj heq
    have hmem : (r.tmp.tmpfsTable j).page ∈ r.tmp.pages ++ (r.unlinked ++ others) :=
      mem_append_left _ (mem_map_of_mem hj)
    have hsame : f.page = (r.tmp.tmpfsTable j).page := by rw [TmpFile.page, TmpFile.page, heq]
    have hdisj := hbooks.head_disjoint hmem
    rw [hsame] at hdisj
    exact Set.disjoint_left.mp hdisj (Buddy.Block.page_mem_pages _) (Buddy.Block.page_mem_pages _)
  have hperm := pages_create (s := { r.tmp with pmm }) hi hfree hlive
  have hentries : ∀ j, j ∈ (TmpState.setFile { r.tmp with pmm } i f).entries ↔ j = i ∨
    j ∈ r.tmp.entries := fun j =>
    mem_entries_create hi hlive
  have hempty : r.tmp.mem.bytes f.ptr f.size = [] := by rw [hsize]; rfl
  simp only [TmpState.setFile] at hentries
  simp only [TmpRun.afterOpen, TmpState.setFile]
  exact
    { books := hbooks.perm (hperm.symm.append_right _)
      names := by grind
      pages := by grind
      apart := by grind
      opens := by grind
      contents := by grind
      unused := by grind }

theorem TmpRun.Inv.openFd {e : Vfd} (h : r.Inv top X others) (hi : i ∈ r.tmp.entries)
    (hreal : e.realFd = i) :
    TmpRun.Inv top X others
      { r with
        tmp := { r.tmp with vfdTable := update r.tmp.vfdTable v e }
        opened := update r.opened v (i, r.filled i) } := by
  have hopens := h.opens
  refine { h with opens := ?_ }
  grind [TmpState.entries]

/-- An open keeps the invariant. -/
theorem TmpRun.Inv.returns_openEntry {entry : Option Nat} {s1 : TmpState}
    (h : TmpRun.Inv top X others (r.afterOpen none s1)) (hentry : ∀ i, entry = some i →
      i ∈ s1.entries) :
    Returns (openEntry entry) (fun v s' => TmpRun.Inv top X others (r.afterOpen v s') ∧
      ∀ w, v = some w → entry = some (s'.vfdTable w).realFd) s1 := by
  refine (Mellivora.returns_openEntry entry).mono ?_
  rintro v s' (⟨rfl, rfl⟩ | ⟨i, v, e, rfl, rfl, -, -, hreal, rfl⟩)
  · exact ⟨h, nofun⟩
  have hself : update s1.vfdTable v e v = e := update_self ..
  refine ⟨?_, fun w hw => ?_⟩
  · have hopened := h.openFd (v := v) (hentry i rfl) hreal
    rw [← hreal] at hopened
    unfold TmpRun.afterOpen at hopened ⊢
    simp only [hself]
    exact hopened
  · grind

/-- An open for writing comes to the entry of the name, an existing one if there is one. -/
theorem TmpRun.Inv.returns_open (h : r.Inv top X others) (ha : Arena top X) {flags : Nat}
    (hguard : TmpCall.Guarded (.open name flags) r) :
    Returns (vfsTmpOpen name flags) (fun v s' => TmpRun.Inv top X others (r.afterOpen v s') ∧
      (flags &&& fdFlagWrite ≠ 0 → ∀ i ∈ r.tmp.entries, (r.tmp.tmpfsTable i).name = name →
        ∀ w, v = some w → (s'.vfdTable w).realFd = i)) r.tmp := by
  rw [vfsTmpOpen]
  by_cases hflags : flags &&& fdFlagWrite = 0
  · rw [if_pos hflags, returns_bind, returns_get]
    have hsame : TmpRun.Inv top X others (r.afterOpen none r.tmp) := by
      rw [afterOpen_same rfl]
      exact h
    refine (hsame.returns_openEntry fun i hi => (TmpState.of_tmpfsFind hi).1).mono
      fun v s' hs' => ?_
    exact ⟨hs'.1, fun hne => absurd hflags hne⟩
  rw [if_neg hflags, returns_bind]
  obtain ⟨hlen, hbefore⟩ := hguard hflags
  refine (returns_tmpfsFindOrCreate h.books ha name).mono ?_
  rintro entry s1
    (⟨pmm, rfl, hbooks, hfound⟩ | ⟨i, pmm, ptr, rfl, hfind, hfree, halign, hbooks, rfl⟩)
  · have hafter : r.afterOpen none { r.tmp with pmm } = { r with tmp := { r.tmp with pmm } } :=
      afterOpen_same rfl
    have hsame : TmpRun.Inv top X others (r.afterOpen none { r.tmp with pmm }) := by
      rw [hafter]
      exact h.repaged hbooks
    have hentry : ∀ i, entry = some i → i ∈ r.tmp.entries ∧ (r.tmp.tmpfsTable i).name = name := by
      intro i hi
      obtain ⟨hfind, hlive⟩ := hfound i hi
      obtain ⟨hlt, hname, -⟩ := TmpState.of_freeOrNamed hfind
      exact ⟨TmpState.mem_entries.mpr ⟨hlt, hlive⟩, hname hlive⟩
    refine (hsame.returns_openEntry fun i hi => (hentry i hi).1).mono fun v s' hs' => ⟨hs'.1, ?_⟩
    intro _ i hi hname w hw
    obtain ⟨hmem, hname'⟩ := hentry _ (hs'.2 w hw)
    exact h.names _ hmem i hi (hname'.trans hname.symm)
  · obtain ⟨hlt, -, hfirst⟩ := TmpState.of_freeOrNamed hfind
    have hnot : i ∉ r.tmp.entries := fun hmem =>
      false_ne_true (hfree.symm.trans (TmpState.mem_entries.mp hmem).2)
    -- The entry of the name would stand behind the free one.
    have hnew : ∀ j ∈ r.tmp.entries, (r.tmp.tmpfsTable j).name ≠ name := by
      intro j hj hname
      rcases lt_trichotomy j i with hlt | rfl | hlt
      · exact (hfirst j hlt).2 hname
      · exact hnot hj
      · exact hnot (hbefore j hj hname i hlt)
    have htake : name.take (tmpfsNameLen - 1) = name := take_of_length_le (le_pred_of_lt hlen)
    have hcreate :=
      h.create (f := { live := true, ptr, name := name.take (tmpfsNameLen - 1) }) hlt hfree rfl rfl
      halign hbooks fun j hj => by rw [htake]; exact hnew j hj
    refine (hcreate.returns_openEntry fun j hj => ?_).mono fun v s' hs' =>
      ⟨hs'.1, fun _ j hj hname => absurd hname (hnew j hj)⟩
    cases hj
    exact (mem_entries_create hlt rfl).mpr (.inl rfl)

/-! ### Reading, writing, closing and unlinking -/

theorem TmpRun.Inv.setVfd {e : Vfd} (h : r.Inv top X others)
    (hopen : e.isOpen → (r.tmp.vfdTable v).isOpen) (hreal : e.realFd = (r.tmp.vfdTable v).realFd) :
    TmpRun.Inv top X others
    { r with tmp := { r.tmp with vfdTable := update r.tmp.vfdTable v e } } := by
  have hopens := h.opens
  refine { h with opens := ?_ }
  grind [TmpState.entries]

/-- A read returns what was written to the file. -/
theorem TmpRun.Inv.returns_read (h : r.Inv top X others) (v len : Nat) :
    Returns (vfsTmpRead v len) (fun bytes s' => TmpRun.Inv top X others { r with tmp := s' } ∧
      ∀ b, bytes = some b → b = ((r.contents (r.opened v)).drop (r.tmp.vfdTable v).pos).take len)
      r.tmp := by
  rw [vfsTmpRead]
  by_cases hmax : vfsMaxFds ≤ v
  · rw [if_pos hmax, returns_pure]
    exact ⟨h, nofun⟩
  rw [if_neg hmax, returns_bind, returns_get]
  by_cases hopen : (r.tmp.vfdTable v).isOpen
  swap
  · rw [if_pos (by simpa using hopen), returns_pure]
    exact ⟨h, nofun⟩
  rw [if_neg (by simpa using hopen)]
  obtain ⟨hmem, hopened⟩ := h.opens v ⟨Nat.lt_of_not_le hmax, hopen⟩
  have hcontents := h.contents _ hmem
  dsimp only at hmem hopened hcontents ⊢
  rw [hopened, ← hcontents, bytes_slice]
  by_cases hend : (r.tmp.tmpfsTable (r.tmp.vfdTable v).realFd).size ≤ (r.tmp.vfdTable v).pos
  · rw [if_pos hend, returns_pure, Nat.sub_eq_zero_of_le hend, Nat.zero_min]
    exact ⟨h, fun b hb => (Option.some.inj hb).symm⟩
  · rw [if_neg hend, returns_bind, returns_set, returns_pure]
    exact ⟨h.setVfd (fun _ => hopen) rfl, fun b hb => (Option.some.inj hb).symm⟩

/-- Bytes are appended to one file. -/
theorem TmpRun.Inv.append (h : r.Inv top X others) (hi : i ∈ r.tmp.entries) (data : List UInt8)
    (hroom : (r.tmp.tmpfsTable i).size + data.length ≤ tmpfsFileMax) :
    let f := r.tmp.tmpfsTable i
    TmpRun.Inv top X others
      { r with
        tmp := (r.tmp.store (f.ptr + f.size) data).setFile i { f with size := f.size + data.length }
        contents := update r.contents (i, r.filled i) (r.contents (i, r.filled i) ++ data) } := by
  intro f
  have hf : f = r.tmp.tmpfsTable i := rfl
  have halign : f.ptr % 4096 = 0 := (h.pages i hi).1
  change f.size + data.length ≤ tmpfsFileMax at hroom
  obtain ⟨hbooks, hnames, hpages, hapart, hopens, hcontents, hunused⟩ := h
  generalize htmp : (r.tmp.store (f.ptr + f.size) data).setFile i
    { f with size := f.size + data.length } = tmp
  have htable : ∀ j, tmp.tmpfsTable j = if j = i then { f with size := f.size + data.length } else
    r.tmp.tmpfsTable j := by
    intro j
    rw [← htmp]
    exact update_apply ..
  have hentries : tmp.entries = r.tmp.entries := by
    rw [← htmp]
    exact entries_resize rfl
  have hsame : tmp.pages = r.tmp.pages := by
    rw [← htmp]
    exact pages_resize rfl rfl
  have hmem : tmp.mem = r.tmp.mem.write (f.ptr + f.size) data := by rw [← htmp]; rfl
  have hfd : tmp.vfdTable = r.tmp.vfdTable := by rw [← htmp]; rfl
  have hfile : (r.tmp.mem.write (f.ptr + f.size) data).bytes f.ptr (f.size + data.length) =
      r.contents (i, r.filled i) ++ data := by
    rw [bytes_append, bytes_write, bytes_write_apart (.inl le_rfl), hcontents i hi]
  have hothers : ∀ a ∈ r.tmp.entries, a ≠ i → (r.tmp.mem.write (f.ptr + f.size) data).bytes
      (r.tmp.tmpfsTable a).ptr (r.tmp.tmpfsTable a).size = r.contents (a, r.filled a) := by
    intro a ha hai
    -- The file has another page.
    have hne : (r.tmp.tmpfsTable a).ptr ≠ f.ptr := fun heq => hai (hapart a ha i hi heq)
    obtain ⟨haligna, hsize⟩ := hpages a ha
    rw [← hcontents a ha]
    refine bytes_write_apart ?_
    unfold tmpfsFileMax at hroom hsize
    omega
  have hkept :
    Kept False top X { pmm := tmp.pmm, live := tmp.pages ++ (r.unlinked ++ others) } := by
    rw [hsame, ← htmp]
    refine hbooks.relink fun page hpage => if_neg fun hmeets => ?_
    -- The bytes all lie in the page of the file.
    have hpage := hpage f.page (mem_append_left _ (mem_map_of_mem hi))
    have hblock : (liveBlock f.page).pages = Set.Ico (f.ptr / 4096) (f.ptr / 4096 + 1) := rfl
    rw [hblock, Set.mem_Ico] at hpage
    unfold tmpfsFileMax at hroom
    omega
  clear_value f
  exact
    { books := hkept
      names := by grind
      pages := by grind
      apart := by grind
      opens := by grind
      contents := by grind
      unused := by grind }

/-- A write keeps the invariant. -/
theorem TmpRun.Inv.returns_write (h : r.Inv top X others) (v : Nat) (src : List UInt8) :
    Returns (vfsTmpWrite v src) (fun n s' => TmpRun.Inv top X others (r.afterWrite v src n s'))
    r.tmp := by
  rw [vfsTmpWrite]
  by_cases hmax : vfsMaxFds ≤ v
  · rw [if_pos hmax, returns_pure]
    exact h
  rw [if_neg hmax, returns_bind, returns_get]
  by_cases hopen : (r.tmp.vfdTable v).isOpen
  swap
  · rw [if_pos (by simpa using hopen), returns_pure]
    exact h
  rw [if_neg (by simpa using hopen)]
  obtain ⟨hmem, hopened⟩ := h.opens v ⟨Nat.lt_of_not_le hmax, hopen⟩
  obtain ⟨-, hsize⟩ := h.pages _ hmem
  dsimp only at hmem hopened hsize ⊢
  generalize (r.tmp.vfdTable v).realFd = i at hmem hopened hsize ⊢
  generalize hn : min src.length (tmpfsFileMax - (r.tmp.tmpfsTable i).size) = n
  have hlen : (src.take n).length = n := by
    rw [length_take]
    omega
  have happend := h.append hmem (src.take n) (by omega)
  rw [hlen] at happend
  dsimp only at happend
  rw [← hopened] at happend
  by_cases hzero : n = 0
  · subst hzero
    rw [if_neg (by simp), returns_pure]
    refine { h with contents := ?_, unused := ?_ }
    · intro a ha
      show _ = update r.contents (r.opened v) (r.contents (r.opened v) ++ src.take 0) _
      rw [take_zero, append_nil, update_eq_self]
      exact h.contents a ha
    · show ∀ a n, r.filled a < n →
        update r.contents (r.opened v) (r.contents (r.opened v) ++ src.take 0) _ = []
      rw [take_zero, append_nil, update_eq_self]
      exact h.unused
  · rw [if_pos hzero, returns_bind, returns_set, returns_pure]
    exact happend

/-- A close keeps the invariant. -/
theorem TmpRun.Inv.returns_close (h : r.Inv top X others) (hv : v < vfsMaxFds) :
    Returns (vfsTmpClose v) (fun _ s' => TmpRun.Inv top X others { r with tmp := s' }) r.tmp := by
  rw [vfsTmpClose, if_neg (not_le.mpr hv)]
  simp only [returns_rules]
  by_cases hopen : (r.tmp.vfdTable v).isOpen
  · rw [if_neg (by simpa using hopen), returns_bind, returns_set, returns_pure]
    exact h.setVfd (fun _ => hopen) rfl
  · rw [if_pos (by simpa using hopen), returns_pure]
    exact h

/-- A file goes that no descriptor is open on, and its page does not. -/
theorem TmpRun.Inv.unlink {refused : Nat} (h : r.Inv top X others) (hi : i ∈ r.tmp.entries)
    (hclosed : ∀ v, r.tmp.IsOpen v → (r.tmp.vfdTable v).realFd ≠ i) :
    TmpRun.Inv top X others
      { r with
        tmp := TmpState.setFile { r.tmp with pmm := { r.tmp.pmm with pmmBadFrees := refused } } i {}
        unlinked := (r.tmp.tmpfsTable i).page :: r.unlinked } := by
  generalize htmp :
    TmpState.setFile { r.tmp with pmm := { r.tmp.pmm with pmmBadFrees := refused } } i {} = tmp
  have htable : ∀ j, tmp.tmpfsTable j = if j = i then {} else r.tmp.tmpfsTable j := by
    intro j
    rw [← htmp]
    exact update_apply ..
  have hentries : ∀ j, j ∈ tmp.entries ↔ j ≠ i ∧ j ∈ r.tmp.entries := by
    intro j
    rw [← htmp]
    exact mem_entries_unlink
  have hmem : tmp.mem = r.tmp.mem := by rw [← htmp]; rfl
  have hfd : tmp.vfdTable = r.tmp.vfdTable := by rw [← htmp]; rfl
  have hkept : Kept False top X
      { pmm := tmp.pmm
        live := tmp.pages ++ ((r.tmp.tmpfsTable i).page :: r.unlinked ++ others) } := by
    have hpages : r.tmp.pages.Perm ((r.tmp.tmpfsTable i).page :: tmp.pages) := by
      rw [← htmp]
      exact pages_unlink hi
    have hperm : (r.tmp.pages ++ (r.unlinked ++ others)).Perm
        (tmp.pages ++ ((r.tmp.tmpfsTable i).page :: r.unlinked ++ others)) :=
      (hpages.append_right _).trans perm_middle.symm
    obtain ⟨⟨lists, hb⟩, hcounts⟩ := h.books.perm hperm
    rw [← htmp] at hb hcounts ⊢
    exact ⟨⟨lists, { hb with }⟩, hcounts⟩
  obtain ⟨-, hnames, hpages, hapart, hopens, hcontents, hunused⟩ := h
  exact
    { books := hkept
      names := by grind
      pages := by grind
      apart := by grind
      opens := by grind
      contents := by grind
      unused := hunused }

theorem returns_freePage_zero (pmm : Pmm) :
    Returns (pmmFreePage 0)
    (fun _ pmm' => pmm' = { pmm with pmmBadFrees := (pmm.pmmBadFrees + 1) % 2 ^ 32 }) pmm := by
  have hcheck : pmmCheckFree pmm 0 = true := by
    simp [pmmCheckFree, kernelReservedEnd]
  rw [pmmFreePage, returns_bind, returns_get, if_pos hcheck, refuseFree, returns_modify]

/-- An unlink of a closed file keeps the invariant. -/
theorem TmpRun.Inv.returns_unlink (h : r.Inv top X others)
    (hguard : TmpCall.Guarded (.unlink name) r) :
    Returns (vfsTmpUnlink name) (fun _ s' => TmpRun.Inv top X others (r.afterUnlink name s'))
    r.tmp := by
  simp only [vfsTmpUnlink, TmpRun.afterUnlink, returns_rules]
  cases hfind : r.tmp.tmpfsFind name with
  | none => exact returns_pure.mpr h
  | some i =>
  obtain ⟨hi, hname⟩ := TmpState.of_tmpfsFind hfind
  have hclosed := hguard i hfind
  simp only [returns_bind]
  rw [strCmp, if_pos hname.symm]
  refine returns_onPmm ((returns_freePage_zero _).mono fun _ pmm hpmm => ?_)
  rw [returns_modify, returns_pure]
  subst hpmm
  exact h.unlink hi hclosed

/-- Every guarded call keeps the invariant. -/
theorem TmpRun.Inv.step (h : r.Inv top X others) (ha : Arena top X) {c : TmpCall}
    (hc : c.Guarded r) :
    ∃ r', c.step r = some r' ∧ r'.Inv top X others := by
  cases c with
  | «open» name flags =>
    obtain ⟨v, s', hrun, hinv, -⟩ := h.returns_open ha hc
    exact ⟨_, by rw [TmpCall.step, hrun]; rfl, hinv⟩
  | read v len =>
    obtain ⟨bytes, s', hrun, hinv, -⟩ := h.returns_read v len
    exact ⟨_, by rw [TmpCall.step, hrun]; rfl, hinv⟩
  | write v src =>
    obtain ⟨n, s', hrun, hinv⟩ := h.returns_write v src
    exact ⟨_, by rw [TmpCall.step, hrun]; rfl, hinv⟩
  | close v =>
    obtain ⟨_, s', hrun, hinv⟩ := h.returns_close hc
    exact ⟨_, by rw [TmpCall.step, hrun]; rfl, hinv⟩
  | unlink name =>
    obtain ⟨_, s', hrun, hinv⟩ := h.returns_unlink hc
    exact ⟨_, by rw [TmpCall.step, hrun]; rfl, hinv⟩

/-- Every guarded call answers right. -/
theorem TmpRun.Inv.right (h : r.Inv top X others) (ha : Arena top X) {c : TmpCall}
    (hc : c.Guarded r) : c.Right r := by
  cases c with
  | «open» name flags =>
    intro hflags i hi hname v s' hrun
    obtain ⟨v', t, hrun', -, hexisting⟩ := h.returns_open ha hc
    rw [hrun] at hrun'
    cases hrun'
    exact hexisting hflags i hi hname v rfl
  | read v len =>
    intro bytes s' hrun
    obtain ⟨bytes', t, hrun', -, hbytes⟩ := h.returns_read v len
    rw [hrun] at hrun'
    cases hrun'
    exact hbytes bytes rfl
  | write v src => trivial
  | close v => trivial
  | unlink name => trivial

/-- In every run whose calls all meet their condition, names are unique, opens for writing find what
is there and descriptors stay on their files. The pages are those of the entries in use if no file
has been unlinked, and only then. -/
theorem tmpRun_sound {calls : List TmpCall} (hfresh : s.Fresh X others)
    (hcalls : AlongAll TmpCall.step TmpCall.Guarded calls { tmp := s }) :
    AlongAll TmpCall.step TmpCall.Right calls { tmp := s } ∧
      ∃ r', afterAll TmpCall.step { tmp := s } calls = some r' ∧ r'.Sound ∧
        (r'.PagesOwned X others ↔ r'.unlinked = []) := by
  obtain ⟨top, ha, hinv⟩ := hfresh.inv
  refine ⟨hcalls.guarantee (fun c t ht hc => TmpRun.Inv.step ht ha hc)
    (fun c t ht hc => ht.right ha hc) hinv, ?_⟩
  obtain ⟨r', hrun, hr'⟩ := hcalls.invariant (fun c t ht hc => TmpRun.Inv.step ht ha hc) hinv
  exact ⟨r', hrun, hr'.sound, hr'.pagesOwned_iff⟩

/-- Four pages from 8 MB on, and nothing in them yet. -/
def freshTmp : TmpState where
  pmm := (((pmmSeed [(0x800000, 0x4000)]).run { pmmMemTop := 0x1000000 }).map Prod.snd).getD {}

theorem freshTmp_fresh : freshTmp.Fresh (seededPages [(0x800000, 0x4000)]) [] := by
  refine ⟨⟨{ pmmMemTop := 0x1000000 }, _, freshTmp.pmm, [],
    ⟨fun _ => rfl, fun _ _ => rfl, by decide⟩,
    ⟨by decide, by decide, pairwise_singleton ..⟩, rfl, rfl, trivial, rfl⟩, fun _ _ => rfl,
    fun _ _ => rfl⟩

/-- A file that is written, closed and unlinked. -/
theorem tmpRun_sound_unlinked :
    AlongAll TmpCall.step TmpCall.Right [.open [97] fdFlagWrite, .write 3 [1, 2], .close 3,
        .unlink [97]]
        { tmp := freshTmp } ∧
      ∃ r', afterAll TmpCall.step { tmp := freshTmp }
          [.open [97] fdFlagWrite, .write 3 [1, 2], .close 3, .unlink [97]] = some r' ∧ r'.Sound ∧
        (r'.PagesOwned (seededPages [(0x800000, 0x4000)]) [] ↔ r'.unlinked = []) := by
  have hclosed : ((((TmpCall.step (.open [97] fdFlagWrite) { tmp := freshTmp }).bind
      (TmpCall.step (.write 3 [1, 2]))).bind (TmpCall.step (.close 3))).map fun r =>
        decide (∀ v < vfsMaxFds, (r.tmp.vfdTable v).isOpen = false)) =
          some true := by decide +kernel
  refine tmpRun_sound freshTmp_fresh ⟨fun _ => ⟨by decide, fun i hi => ?_⟩, fun r1 h1 =>
    ⟨trivial, fun r2 h2 =>
    ⟨(by decide : 3 < vfsMaxFds), fun r3 h3 => ⟨fun i _ v hv => ?_, fun _ _ => trivial⟩⟩⟩⟩
  · exact absurd (TmpState.mem_entries.mp hi).2 false_ne_true
  · grind

/-- The file `a` is unlinked while `b` stands behind it, and `b` is opened again: it is made a
second time. -/
theorem reopenedBehindHole_not_sound :
    freshTmp.Fresh (seededPages [(0x800000, 0x4000)]) [] ∧
      ∃ r', afterAll TmpCall.step { tmp := freshTmp }
      [.open [97] fdFlagWrite, .open [98] fdFlagWrite, .unlink [97], .open [98] fdFlagWrite] =
        some r' ∧
        ¬ r'.Sound := by
  have hrun : ((afterAll TmpCall.step { tmp := freshTmp }
      [.open [97] fdFlagWrite, .open [98] fdFlagWrite, .unlink [97], .open [98] fdFlagWrite]).map
      fun r =>
        ((r.tmp.tmpfsTable 0).live && (r.tmp.tmpfsTable 1).live, (r.tmp.tmpfsTable 0).name,
          (r.tmp.tmpfsTable 1).name)) = some (true, [98], [98]) := by decide +kernel
  obtain ⟨r, hr, hfacts⟩ := Option.map_eq_some_iff.mp hrun
  simp only [Prod.mk.injEq, and_eq_true] at hfacts
  obtain ⟨⟨hlive0, hlive1⟩, hname0, hname1⟩ := hfacts
  refine ⟨freshTmp_fresh, r, hr, fun hsound => ?_⟩
  have hsame := hsound.names 0 (TmpState.mem_entries.mpr ⟨by decide, hlive0⟩) 1
    (TmpState.mem_entries.mpr ⟨by decide, hlive1⟩) (hname0.trans hname1.symm)
  exact absurd hsame (by decide)

end Runs

end Mellivora
