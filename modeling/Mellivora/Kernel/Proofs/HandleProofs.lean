import Mellivora.Kernel.Handles
import Mellivora.Disk.Proofs.BufferProofs
import Mellivora.Lib.Outcome

/-!
# Proofs: handle tables

A close clears the generation along with the rights, so an entry in use always has generation 1. An
open clears the low word of the next object pointer, and growing starts with an empty table. What a
handle leads to is kept by the calls that do neither to an entry in use.
-/

namespace Mellivora

open Outcome List Buffer Nat

variable {pages : List Nat} {index : Nat} {t : HandleTable} {mem : Buffer}
  {base slot obj rights : Nat}

/-! ## Entries -/

/-- The stores of an open into an entry without a generation. -/
theorem storeEntry_spec (rights : Nat) (hgen : mem.word (slot + 6) = 0) (hobj : obj < 2 ^ 32) :
    let r := storeEntry mem slot obj rights
    r.2 = 1 ∧ r.1.dword slot = obj ∧ r.1.word (slot + 4) = rights % 2 ^ 16 ∧
      r.1.word (slot + 6) = 1 ∧ r.1.word (slot + 8) = 0 ∧ ∀ i, i < slot ∨ slot + 10 ≤ i →
      r.1 i = mem i := by
  have hread : (mem.setDword slot obj).dword (slot + 6) = 2 ^ 16 * mem.word (slot + 8) := by
    rw [dword_setDword_of_apart (by omega), dword_eq_words, hgen, zero_add]
  have hnext : ((mem.setDword slot obj).dword (slot + 6) + 1) % 2 ^ 32 &&& handleGenMask = 1 := by
    rw [hread, show handleGenMask = 2 ^ 14 - 1 from rfl, and_two_pow_sub_one_eq_mod]
    have := mem.word_lt (slot + 8)
    omega
  have hwords := @word_setDword (mem.setDword slot obj) (slot + 6) 1 (by decide)
  simp only [storeEntry, heObj, heGen, heRights, add_zero, hnext, if_neg one_ne_zero, true_and]
  refine ⟨?_, word_setWord_self, ?_, ?_, ?_⟩
  · rw [dword_setWord_of_apart (by omega), dword_setDword_of_apart (by omega),
      dword_setDword_self hobj]
  · exact (word_setWord_of_apart (by omega)).trans hwords.1
  · exact (word_setWord_of_apart (by omega)).trans hwords.2
  · intro i hi
    rw [setWord_apply_of_outside (by omega), setDword_apply_of_outside (by omega),
      setDword_apply_of_outside (by omega)]

/-- The scan finds a free entry. -/
theorem htScan_some {left j : Nat} (h : htScan mem base left index = some j) :
    index ≤ j ∧ j < index + left ∧ mem.dword (htSlot j base) = 0 := by
  induction left generalizing index with
  | zero => cases h
  | succ left ih =>
  rw [htScan] at h
  split at h
  · cases h
    exact ⟨le_refl _, by omega, ‹_›⟩
  · obtain ⟨h1, h2, h3⟩ := ih h
    exact ⟨by omega, by omega, h3⟩

/-- An entry: free, or in use with generation 1. -/
def EntryOk (mem : Buffer) (slot : Nat) : Prop :=
  mem.dword slot = 0 ∧ mem.word (slot + 6) = 0 ∨ 2 ^ 16 ≤ mem.dword slot ∧ mem.word (slot + 6) = 1

/-- The state of a handle table in every run. -/
structure TableInv (t : HandleTable) : Prop where
  pages : TablePages t.pages
  noTable : t.handles = 0 → t.hcap = 0
  table : t.handles ≠ 0 → kernelReservedEnd ≤ t.handles
  cap : t.hcap ≤ handleMaxCap
  entry : ∀ i < t.hcap, EntryOk t.mem (htSlot i t.handles)

theorem EntryOk.congr {mem' : Buffer} (h : EntryOk mem slot)
    (heq : ∀ i, slot ≤ i → i < slot + 8 → mem' i = mem i) : EntryOk mem' slot := by
  have hobj : mem'.dword slot = mem.dword slot :=
    dword_congr fun i _ _ => heq i (by omega) (by omega)
  have hgen : mem'.word (slot + 6) = mem.word (slot + 6) :=
    word_congr fun i _ _ => heq i (by omega) (by omega)
  rwa [EntryOk, hobj, hgen]

theorem EntryOk.clearLow {mem' : Buffer} (h : EntryOk mem slot) (hlow : mem'.word slot = 0)
    (heq : ∀ i, slot + 2 ≤ i → i < slot + 8 → mem' i = mem i) : EntryOk mem' slot := by
  have hhigh : mem'.word (slot + 2) = mem.word (slot + 2) :=
    word_congr fun i _ _ => heq i (by omega) (by omega)
  have hgen : mem'.word (slot + 6) = mem.word (slot + 6) :=
    word_congr fun i _ _ => heq i (by omega) (by omega)
  have hword := mem.word_lt slot
  unfold EntryOk at *
  rw [dword_eq_words, hlow, hhigh, hgen]
  rw [dword_eq_words mem] at h
  omega

theorem TablePages.tail (h : TablePages pages) : TablePages pages.tail :=
  fun page hpage => h page (mem_of_mem_tail hpage)

theorem TablePages.headD (h : TablePages pages) (hne : pages.headD 0 ≠ 0) :
    kernelReservedEnd ≤ pages.headD 0 := by
  cases pages with
  | nil => exact absurd rfl hne
  | cons page pages =>
    rcases h page (mem_cons_self ..) with hzero | ⟨hlow, -⟩
    · exact absurd hzero hne
    · exact hlow

/-- A table whose entries are all zero. -/
def HandleTable.Empty (t : HandleTable) : Prop :=
  t.handles ≠ 0 ∧ 0 < t.hcap ∧ ∀ i, t.handles ≤ i → i < t.handles + t.hcap * 8 → t.mem i = 0

/-- The table `t'` is a new one in the place of `t`. A first table is cleared and no other
memory. -/
structure Renewed (t t' : HandleTable) : Prop where
  full : t.freeSlot = none
  empty : t'.Empty
  cap : t.hcap = 0 → t'.hcap = handleDefaultCap
  rest : t.handles = 0 → t.hcap = 0 → ∀ a, ¬ t'.Owns a → t'.mem a = t.mem a

theorem dword_zero (h : ∀ i, slot ≤ i → i < slot + 8 → mem i = 0) : mem.dword slot = 0 := by
  rw [dword, h slot (by omega) (by omega), h (slot + 1) (by omega) (by omega),
    h (slot + 2) (by omega) (by omega), h (slot + 3) (by omega) (by omega)]
  rfl

theorem EntryOk.zero (h : ∀ i, slot ≤ i → i < slot + 8 → mem i = 0) : EntryOk mem slot := by
  refine .inl ⟨dword_zero h, ?_⟩
  rw [word, h (slot + 6) (by omega) (by omega), h (slot + 6 + 1) (by omega) (by omega)]
  rfl

theorem HandleTable.grownCap_bounds (h : ¬ handleMaxCap ≤ t.hcap) :
    0 < t.grownCap ∧ t.grownCap ≤ handleMaxCap := by
  have hadd : (if handleDefaultCap ≤ t.hcap then handlePageEntries else handleDefaultCap) =
    4096 := by
    split <;> rfl
  simp only [grownCap, hadd]
  unfold handleMaxCap at *
  omega

/-- A table that has moved is empty, as its entries went elsewhere. -/
theorem HandleTable.grownMem_eq_zero {new i : Nat} (hcap : t.hcap ≤ handleMaxCap)
    (hlow : kernelReservedEnd ≤ new) (hi : new ≤ i) (hi' : i < new + t.grownCap * 8) :
    t.grownMem new i = 0 := by
  have hclear : t.mem.clear new ((t.grownCap * heEntry + 4095) / 4096 * 4096) i = 0 := by
    rw [clear, if_pos]
    simp only [heEntry]
    omega
  unfold grownMem
  by_cases hnone : t.handles = 0
  · simp only [if_pos hnone, hclear]
  · simp only [if_neg hnone]
    rw [copy, if_neg, hclear]
    simp only [kernelReservedEnd, handleMaxCap, heEntry] at *
    omega

theorem HandleTable.grownCap_first (h : t.hcap = 0) : t.grownCap = handleDefaultCap := by
  rw [grownCap, h]
  rfl

/-- A first table takes whole pages, so nothing behind it is cleared. -/
theorem HandleTable.grownMem_outside {new a : Nat} (hnone : t.handles = 0) (hzero : t.hcap = 0)
    (ha : ¬ (new ≤ a ∧ a < new + t.grownCap * heEntry)) : t.grownMem new a = t.mem a := by
  rw [grownCap_first hzero] at ha
  rw [grownMem, grownCap_first hzero, if_pos hnone]
  exact if_neg ha

/-- Growing fails and changes nothing but the pages that are left, or it leaves an empty table: the
old entries are copied to address 0. -/
theorem returns_htGrow (h : TableInv t) :
    Returns htGrow (fun full t' => TableInv t' ∧ t'.hcount = t.hcount ∧
      if full then ∃ pages, t' = { t with pages } else t.freeSlot = none → Renewed t t') t := by
  rw [htGrow, returns_bind, returns_get]
  by_cases hmax : handleMaxCap ≤ t.hcap
  · rw [if_pos hmax, returns_pure]
    exact ⟨h, rfl, t.pages, rfl⟩
  rw [if_neg hmax]
  simp only [takePages, returns_rules]
  by_cases hnew : t.pages.headD 0 = 0
  · rw [if_pos hnew, returns_pure]
    exact ⟨{ h with pages := h.pages.tail }, rfl, _, rfl⟩
  rw [if_neg hnew, returns_bind, returns_modify, returns_pure]
  have hlow := h.pages.headD hnew
  have hcap := HandleTable.grownCap_bounds hmax
  have hempty : ∀ i, t.pages.headD 0 ≤ i → i < t.pages.headD 0 + t.grownCap * 8 →
      t.grownMem (t.pages.headD 0) i = 0 := fun i => HandleTable.grownMem_eq_zero h.cap hlow
  refine ⟨⟨h.pages.tail, fun hzero => absurd hzero hnew, fun _ => hlow, hcap.2,
    fun i hi => ?_⟩, rfl,
    fun hfull => ⟨hfull, ⟨hnew, hcap.1, hempty⟩, HandleTable.grownCap_first,
      fun hnone hzero a ha => ?_⟩⟩
  · simp only at hi
    refine EntryOk.zero fun j hj hj' =>
      hempty j ?_ ?_ <;> simp only [htSlot, heEntry] at * <;> omega
  · exact HandleTable.grownMem_outside hnone hzero ha

theorem HandleTable.Empty.freeSlot (h : t.Empty) : t.freeSlot = some 0 := by
  obtain ⟨hne, hpos, hzero⟩ := h
  have hslot : t.mem.dword (htSlot 0 t.handles) = 0 := by
    refine dword_zero fun i hi hi' => hzero i ?_ ?_ <;> simp only [htSlot, heEntry] at * <;> omega
  obtain ⟨cap, hcap⟩ : ∃ cap, t.hcap = cap + 1 := ⟨t.hcap - 1, by omega⟩
  rw [HandleTable.freeSlot, if_neg hne, hcap, htScan]
  exact if_pos hslot

/-- What `.ho_find` comes to: the first free entry of the table, the first entry of a new one, or
nothing. -/
def Found (t : HandleTable) : Option Nat → HandleTable → Prop
  | some index, t' => t' = t ∧ t.freeSlot = some index ∨ Renewed t t' ∧ index = 0
  | none, t' => ∃ pages, t' = { t with pages }

/-- `.ho_find` ends with a free entry, or with a full table. -/
theorem returns_htFind (h : TableInv t) :
    Returns (htFind growthTurns) (fun r t' => TableInv t' ∧ t'.hcount = t.hcount ∧
      Found t r t') t := by
  rw [growthTurns, htFind, returns_bind, returns_get]
  cases hfree : t.freeSlot with
  | some index => exact returns_pure.mpr ⟨h, rfl, .inl ⟨rfl, hfree⟩⟩
  | none =>
  rw [returns_bind]
  refine (returns_htGrow h).mono ?_
  rintro full t1 ⟨hinv, hcount, hcase⟩
  cases full with
  | true => exact returns_pure.mpr ⟨hinv, hcount, hcase⟩
  | false =>
    have hnew : Renewed t t1 := hcase hfree
    rw [if_neg Bool.false_ne_true, htFind, returns_bind, returns_get, hnew.empty.freeSlot]
    exact returns_pure.mpr ⟨hinv, hcount, .inr ⟨hnew, rfl⟩⟩

theorem HandleTable.freeSlot_some (h : t.freeSlot = some index) :
    t.handles ≠ 0 ∧ index < t.hcap ∧ t.mem.dword (htSlot index t.handles) = 0 := by
  rw [HandleTable.freeSlot] at h
  split at h
  · cases h
  · obtain ⟨-, hlt, hzero⟩ := htScan_some h
    exact ⟨‹_›, by omega, hzero⟩

theorem Found.free {t' : HandleTable} (h : Found t (some index) t') :
    t'.handles ≠ 0 ∧ index < t'.hcap ∧ t'.mem.dword (htSlot index t'.handles) = 0 := by
  rcases h with ⟨rfl, hfree⟩ | ⟨hnew, rfl⟩
  · exact HandleTable.freeSlot_some hfree
  · exact HandleTable.freeSlot_some hnew.empty.freeSlot

/-- What `ht_open` does to the table it has found a free entry in. -/
def HandleTable.withEntry (t : HandleTable) (index obj rights : Nat) : HandleTable :=
  { t with mem := (storeEntry t.mem (htSlot index t.handles) obj rights).1, hcount := t.hcount + 1 }

theorem EntryOk.gen_eq_zero (h : EntryOk mem slot) (hobj : mem.dword slot = 0) :
    mem.word (slot + 6) = 0 := by
  rcases h with h | h
  · exact h.2
  · omega

/-- The table with an entry filled. -/
theorem TableInv.withEntry (h : TableInv t) (hindex : index < t.hcap)
    (hfree : t.mem.dword (htSlot index t.handles) = 0)
    (hobj : ObjectPointer obj) : TableInv (t.withEntry index obj rights) := by
  have hgen := (h.entry index hindex).gen_eq_zero hfree
  obtain ⟨-, hdword, -, hword, hnext, hout⟩ := storeEntry_spec rights hgen hobj.2
  refine { h with entry := fun i hi => ?_ }
  simp only [HandleTable.withEntry]
  by_cases heq : i = index
  · subst heq
    refine .inr ⟨?_, hword⟩
    have hlow := hobj.1
    unfold kernelReservedEnd at hlow
    omega
  by_cases hsucc : i = index + 1
  · -- The entry after it keeps its generation and may lose the low word of its object.
    subst hsucc
    have hslot : htSlot (index + 1) t.handles = htSlot index t.handles + 8 := by
      unfold htSlot heEntry
      omega
    rw [hslot]
    have hold := h.entry (index + 1) hi
    rw [hslot] at hold
    exact hold.clearLow hnext fun j hj _ => hout j (by omega)
  · refine (h.entry i hi).congr fun j hj hj' => hout j ?_
    unfold htSlot heEntry at *
    omega

/-- What `ht_open` comes to: it has taken a free entry and gives out the handle with generation 1,
or it has failed and at most put an empty table in the place of one without room. -/
def Opened (t : HandleTable) (obj rights : Nat) : Except MvStatus Nat → HandleTable → Prop
  | .ok handle, t' => ∃ index t1, handle = mkHandle index 1 ∧ TableInv t1 ∧
      Found t (some index) t1 ∧
      t' = t1.withEntry index obj rights
  | .error _, t' => (∃ pages, t' = { t with pages }) ∨ Renewed t t'

/-- `ht_open` always returns and keeps the table. -/
theorem returns_htOpen {all : Nat} (h : TableInv t) (hobj : ObjectPointer obj) :
    Returns (htOpen obj rights all) (fun r t' => TableInv t' ∧
      Opened t obj (handleRights rights all) r t') t := by
  rw [htOpen, returns_bind]
  refine (returns_htFind h).mono ?_
  rintro r t1 ⟨h1, -, hfound⟩
  cases r with
  | none => exact returns_pure.mpr ⟨h1, .inl hfound⟩
  | some index =>
  obtain ⟨-, hindex, hfree⟩ := hfound.free
  simp only [returns_rules]
  by_cases hfull : handleMaxCap ≤ t1.hcount
  · rw [if_pos hfull, returns_pure]
    refine ⟨h1, ?_⟩
    rcases hfound with ⟨rfl, -⟩ | ⟨hnew, -⟩
    · exact .inl ⟨_, rfl⟩
    · exact .inr hnew
  · rw [if_neg hfull, returns_bind, returns_set, returns_pure]
    refine ⟨h1.withEntry hindex hfree hobj, index, t1, ?_, h1, hfound, rfl⟩
    have hgen := (h1.entry index hindex).gen_eq_zero hfree
    rw [(storeEntry_spec _ hgen hobj.2).1]

/-! ## Handles -/

theorem mkHandle_eq (h : index < handleMaxCap) : mkHandle index 1 = 2 ^ 18 + 4 * index := by
  have hlt : 4 * index < 2 ^ 18 := by
    unfold handleMaxCap at h
    omega
  have hor := two_pow_add_eq_or_of_lt hlt 1
  rw [mul_one] at hor
  rw [hor, mkHandle, Nat.or_comm, Nat.shiftLeft_eq, Nat.shiftLeft_eq, Nat.mul_comm index]
  rfl

theorem handleIndex_eq (handle : Nat) : handleIndex handle = handle / 4 % 2 ^ 16 := by
  rw [handleIndex, show handleIndexMask = 2 ^ 16 - 1 from rfl, and_two_pow_sub_one_eq_mod,
    shiftRight_eq_div_pow]
  rfl

theorem handleGen_eq (handle : Nat) : handleGen handle = handle / 2 ^ 18 % 2 ^ 14 := by
  rw [handleGen, show handleGenMask = 2 ^ 14 - 1 from rfl, and_two_pow_sub_one_eq_mod,
    shiftRight_eq_div_pow]
  rfl

theorem handleIndex_mkHandle (h : index < handleMaxCap) :
    handleIndex (mkHandle index 1) = index := by
  rw [handleIndex_eq, mkHandle_eq h]
  unfold handleMaxCap at h
  omega

theorem handleGen_mkHandle (h : index < handleMaxCap) : handleGen (mkHandle index 1) = 1 := by
  rw [handleGen_eq, mkHandle_eq h]
  unfold handleMaxCap at h
  omega

/-- The entry a handle names is in use. -/
def HandleTable.InUse (t : HandleTable) (handle : Nat) : Prop :=
  handleIndex handle < t.hcap ∧ t.mem.dword (htSlot (handleIndex handle) t.handles) ≠ 0

/-- A handle is accepted if its generation is 1 and its entry is in use. -/
theorem TableInv.htEntry_eq_some (h : TableInv t) (handle slot : Nat) :
    htEntry t handle = some slot ↔
      handleGen handle = 1 ∧ t.InUse handle ∧ slot = htSlot (handleIndex handle) t.handles := by
  unfold htEntry HandleTable.InUse
  by_cases hnone : t.handles = 0
  · have hcap := h.noTable hnone
    simp [hnone, hcap]
  rw [if_neg hnone]
  by_cases hcap : t.hcap ≤ handleIndex handle
  · rw [if_pos hcap]
    simp only [ite_self, reduceCtorEq, false_iff]
    omega
  rw [if_neg hcap]
  have hentry : EntryOk t.mem (htSlot (handleIndex handle) t.handles) := h.entry _ (by omega)
  dsimp only
  constructor
  · intro hsome
    split at hsome
    · cases hsome
    split at hsome
    · cases hsome
    split at hsome
    · cases hsome
    rename_i hgen hobj hword
    cases hsome
    rcases hentry with ⟨hzero, -⟩ | ⟨-, hone⟩
    · exact absurd hzero hobj
    · exact ⟨(not_not.mp hword).symm.trans hone, ⟨by omega, hobj⟩, rfl⟩
  · rintro ⟨hgen, ⟨-, hobj⟩, rfl⟩
    have hone : t.mem.word (htSlot (handleIndex handle) t.handles + heGen) = 1 := by
      rcases hentry with ⟨hzero, -⟩ | ⟨-, hone⟩
      · exact absurd hzero hobj
      · exact hone
    have hused : t.mem.dword (htSlot (handleIndex handle) t.handles + heObj) ≠ 0 := hobj
    rw [if_neg (by omega), if_neg hused, if_neg (not_not.mpr (hone.trans hgen.symm))]

/-- The table after `ht_close` has cleared an entry. -/
def HandleTable.withoutEntry (t : HandleTable) (slot : Nat) : HandleTable :=
  { t with mem := (t.mem.setDword slot 0).setDword (slot + 4) 0, hcount := t.hcount - 1 }

theorem HandleTable.withoutEntry_apply {i : Nat} (h : i < slot ∨ slot + 8 ≤ i) :
    (t.withoutEntry slot).mem i = t.mem i := by
  simp only [withoutEntry]
  rw [setDword_apply_of_outside (by omega), setDword_apply_of_outside (by omega)]

theorem HandleTable.withoutEntry_dword : (t.withoutEntry slot).mem.dword slot = 0 := by
  simp only [withoutEntry]
  rw [dword_setDword_of_apart (by omega), dword_setDword_self (by decide)]

theorem TableInv.withoutEntry (h : TableInv t) (index : Nat) :
    TableInv (t.withoutEntry (htSlot index t.handles)) := by
  refine { h with entry := fun i hi => ?_ }
  by_cases heq : i = index
  · subst heq
    refine .inl ⟨HandleTable.withoutEntry_dword, ?_⟩
    exact (@word_setDword _ _ 0 (by decide)).2
  · refine (h.entry i hi).congr fun j hj hj' => HandleTable.withoutEntry_apply ?_
    unfold htSlot heEntry at *
    omega

/-- `ht_close` empties the entry it finds. -/
theorem returns_htClose (handle : Nat) :
    Returns (htClose handle) (fun r t' =>
      match htEntry t handle with
      | none => r = none ∧ t' = t
      | some slot => r = some (t.mem.dword slot) ∧ t' = t.withoutEntry slot) t := by
  rw [htClose, returns_bind, returns_get]
  cases htEntry t handle with
  | none => exact returns_pure.mpr ⟨rfl, rfl⟩
  | some slot =>
    simp only [returns_rules]
    exact ⟨rfl, rfl⟩

/-! ## Runs -/

variable {r : HandleRun}

/-- Every legal call returns and keeps the table. -/
theorem TableInv.step (h : TableInv r.table) (c : HandleCall) (hlegal : c.Legal r) :
    ∃ r', c.step r = some r' ∧ TableInv r'.table := by
  cases c with
  | opens obj rights all =>
    obtain ⟨result, t', hrun, hinv, -⟩ := returns_htOpen h hlegal
    cases result with
    | ok handle => exact ⟨_, by rw [HandleCall.step, hrun]; rfl, hinv⟩
    | error status => exact ⟨_, by rw [HandleCall.step, hrun]; rfl, hinv⟩
  | closes handle =>
  obtain ⟨result, t', hrun, hpost⟩ := returns_htClose (t := r.table) handle
  cases hentry : htEntry r.table handle with
  | none =>
    rw [hentry] at hpost
    obtain ⟨rfl, rfl⟩ := hpost
    exact ⟨_, by rw [HandleCall.step, hrun]; rfl, h⟩
  | some slot =>
    rw [hentry] at hpost
    obtain ⟨rfl, rfl⟩ := hpost
    refine ⟨_, by rw [HandleCall.step, hrun]; rfl, ?_⟩
    obtain ⟨-, -, rfl⟩ := (h.htEntry_eq_some handle slot).mp hentry
    exact h.withoutEntry _

theorem TableInv.initial (h : TablePages pages) : TableInv (HandleRun.initial mem pages).table :=
  ⟨h, fun _ => rfl, fun hne => absurd rfl hne, zero_le _, fun _ hi => absurd hi (not_lt_zero _)⟩

/-- A handle that has been closed is refused as long as its entry is not in use, and only as
long. -/
theorem closedHandle_refused_iff (mem : Buffer) (pages : List Nat) (hpages : TablePages pages)
    (before after : List HandleCall) (handle : Nat)
    (hlegal : Runs.AlongAll HandleCall.step HandleCall.Legal (before ++ .closes handle :: after)
      (HandleRun.initial mem pages))
    (r : HandleRun)
    (hr : Runs.afterAll HandleCall.step (HandleRun.initial mem pages) before = some r)
    (hclosed : (htEntry r.table handle).isSome) :
    ∃ r', Runs.afterAll HandleCall.step (HandleRun.initial mem pages)
      (before ++ .closes handle :: after) = some r' ∧
      (htEntry r'.table handle = none ↔ ¬ r'.table.InUse handle) := by
  have hstep : ∀ c r, TableInv (HandleRun.table r) → HandleCall.Legal c r →
      ∃ r', c.step r = some r' ∧ TableInv r'.table := fun c r hr hc => hr.step c hc
  have hinit : TableInv (HandleRun.initial mem pages).table := TableInv.initial hpages
  obtain ⟨r1, hr1, h1⟩ := hlegal.left.invariant hstep hinit
  obtain rfl : r1 = r := Option.some.inj (hr1.symm.trans hr)
  obtain ⟨slot, hslot⟩ := Option.isSome_iff_exists.mp hclosed
  have hgen := ((h1.htEntry_eq_some handle slot).mp hslot).1
  obtain ⟨r', hr', h'⟩ := hlegal.invariant hstep hinit
  refine ⟨r', hr', ?_⟩
  rw [Option.eq_none_iff_forall_ne_some]
  constructor
  · intro hnone huse
    exact hnone _ ((h'.htEntry_eq_some handle _).mpr ⟨hgen, huse, rfl⟩)
  · intro hfree slot' hsome
    exact hfree ((h'.htEntry_eq_some handle slot').mp hsome).2.1

theorem tablePages_singleton : TablePages [0x900000] := by
  intro page hpage
  rw [mem_singleton.mp hpage]
  exact .inr (by decide)

/-- A handle is closed, its entry is not taken again, and the handle is refused. -/
theorem closedHandle_refused_iff_once :
    ∃ r', Runs.afterAll HandleCall.step (HandleRun.initial (fun _ => 0) [0x900000])
        ([.opens 0x1000000 1 1] ++ .closes 0x40000 :: []) = some r' ∧
      (htEntry r'.table 0x40000 = none ↔ ¬ r'.table.InUse 0x40000) := by
  have hopen : ((Runs.afterAll HandleCall.step (HandleRun.initial (fun _ => 0) [0x900000])
      [.opens 0x1000000 1 1]).map fun r => (htEntry r.table 0x40000).isSome) = some true := by
    decide +kernel
  obtain ⟨r, hr, hclosed⟩ := Option.map_eq_some_iff.mp hopen
  refine closedHandle_refused_iff _ _ tablePages_singleton [.opens 0x1000000 1 1]
    [] 0x40000 ?_ r hr hclosed
  exact ⟨⟨by decide, by decide⟩, fun _ _ => ⟨trivial, fun _ _ => trivial⟩⟩

/-- The generation is lost when a handle is closed, so the next handle of the entry is the same
number. -/
theorem closedHandle_accepted :
    Runs.AlongAll HandleCall.step HandleCall.Legal
        [.opens 0x1000000 1 1, .closes 0x40000, .opens 0x1000200 1 1]
        (HandleRun.initial (fun _ => 0) [0x900000]) ∧
      (Runs.afterAll HandleCall.step (HandleRun.initial (fun _ => 0) [0x900000])
          [.opens 0x1000000 1 1]).map (fun r => (htEntry r.table 0x40000).isSome) = some true ∧
      (Runs.afterAll HandleCall.step (HandleRun.initial (fun _ => 0) [0x900000])
          [.opens 0x1000000 1 1, .closes 0x40000]).map (fun r => (htEntry r.table 0x40000).isSome) =
        some false ∧
      (Runs.afterAll HandleCall.step (HandleRun.initial (fun _ => 0) [0x900000])
          [.opens 0x1000000 1 1, .closes 0x40000, .opens 0x1000200 1 1]).map
        (fun r => (htEntry r.table 0x40000).isSome) = some true := by
  refine ⟨⟨⟨by decide, by decide⟩, fun _ _ => ⟨trivial, fun _ _ => ?_⟩⟩, ?_, ?_, ?_⟩
  · exact ⟨⟨by decide, by decide⟩, fun _ _ => trivial⟩
  all_goals decide +kernel

/-! ## What a handle leads to -/

/-- The handles that a task has open lead to their entries, and outside the table the memory is
still what it was, `mem0`. -/
structure OpenInv (mem0 : Buffer) (r : HandleRun) : Prop where
  table : TableInv r.table
  rest : ∀ a, ¬ r.table.Owns a → r.table.mem a = mem0 a
  entry : ∀ a ∈ r.opened, ∃ index < r.table.hcap, a.1 = mkHandle index 1 ∧ a.2.1 ≠ 0 ∧
    r.table.mem.dword (htSlot index r.table.handles) = a.2.1 ∧
    r.table.mem.word (htSlot index r.table.handles + 4) = a.2.2

variable {mem0 : Buffer}

/-- An open handle names its object. -/
theorem OpenInv.resolves (h : OpenInv mem0 r) {handle obj rights : Nat}
    (ha : (handle, obj, rights) ∈ r.opened) : r.table.Resolves handle obj rights := by
  obtain ⟨index, hindex, hhandle, hne, hobj, hrights⟩ := h.entry _ ha
  simp only at hhandle hne hobj hrights
  have hmax : index < handleMaxCap := lt_of_lt_of_le hindex h.table.cap
  have hi := handleIndex_mkHandle hmax
  have hentry : htEntry r.table handle = some (htSlot index r.table.handles) := by
    refine (h.table.htEntry_eq_some _ _).mpr ⟨?_, ⟨?_, ?_⟩, ?_⟩
    · rw [hhandle, handleGen_mkHandle hmax]
    · rwa [hhandle, hi]
    · rwa [hhandle, hi, hobj]
    · rw [hhandle, hi]
  refine ⟨⟨_, hentry, hobj, hrights⟩, fun need => ?_⟩
  have hword : r.table.mem.word (htSlot index r.table.handles + heRights) = rights := hrights
  have hdword : r.table.mem.dword (htSlot index r.table.handles + heObj) = obj := hobj
  simp only [htUse, hentry, hword, hdword, ne_eq, ite_not]

theorem ObjectPointer.ne_zero (h : ObjectPointer obj) : obj ≠ 0 := by
  have hlow := h.1
  unfold kernelReservedEnd at hlow
  omega

/-- The bytes of an entry are the same in both tables. -/
def EntryBytes (t t' : HandleTable) (index : Nat) : Prop :=
  ∀ i, htSlot index t.handles ≤ i → i < htSlot index t.handles + 8 → t'.mem i = t.mem i

/-- An entry whose bytes stay names what it did. -/
theorem OpenInv.keeps (h : OpenInv mem0 r) {t' : HandleTable} {a : Nat × Nat × Nat}
    (ha : a ∈ r.opened) (hbase : t'.handles = r.table.handles) (hcap : t'.hcap = r.table.hcap)
    (hsame : ∀ index < r.table.hcap, a.1 = mkHandle index 1 →
      r.table.mem.dword (htSlot index r.table.handles) ≠ 0 → EntryBytes r.table t' index) :
    ∃ index < t'.hcap, a.1 = mkHandle index 1 ∧ a.2.1 ≠ 0 ∧
      t'.mem.dword (htSlot index t'.handles) = a.2.1 ∧
      t'.mem.word (htSlot index t'.handles + 4) = a.2.2 := by
  obtain ⟨index, hindex, hhandle, hne, hobj, hrights⟩ := h.entry a ha
  have hbytes := hsame index hindex hhandle (by rwa [hobj])
  refine ⟨index, hcap ▸ hindex, hhandle, hne, ?_, ?_⟩
  · rw [hbase, ← hobj]
    exact dword_congr fun i _ _ => hbytes i (by omega) (by omega)
  · rw [hbase, ← hrights]
    exact word_congr fun i _ _ => hbytes i (by omega) (by omega)

/-- An open that takes an entry with room behind it changes no other entry in use. -/
theorem withEntry_entryBytes {j : Nat} (rights : Nat) (h : TableInv t) (hindex : index < t.hcap)
    (hfree : t.mem.dword (htSlot index t.handles) = 0)
    (hlow : index + 1 < t.hcap → t.mem.word (htSlot (index + 1) t.handles) = 0)
    (hobj : ObjectPointer obj)
    (hj : j < t.hcap) (hji : j ≠ index) : EntryBytes t (t.withEntry index obj rights) j := by
  have hgen := (h.entry index hindex).gen_eq_zero hfree
  obtain ⟨-, -, -, -, hnext, hout⟩ := storeEntry_spec rights hgen hobj.2
  intro i hi hi'
  by_cases hbehind : htSlot index t.handles + 8 ≤ i ∧ i < htSlot index t.handles + 10
  · -- The two bytes behind the entry are cleared, and they were 0.
    have hslot : htSlot (index + 1) t.handles = htSlot index t.handles + 8 := by
      unfold htSlot heEntry
      omega
    have hj' : j = index + 1 := by
      unfold htSlot heEntry at *
      omega
    have hzero := hlow (hj' ▸ hj)
    rw [hslot] at hzero
    rw [eq_zero_of_word hzero hbehind.1 (by omega)]
    exact eq_zero_of_word hnext hbehind.1 (by omega)
  · refine hout i ?_
    unfold htSlot heEntry at *
    omega

/-- With room the table does not grow. -/
theorem HandleTable.Spacious.found (h : t.Spacious) (hne : t.handles ≠ 0) {t1 : HandleTable}
    (hfound : Found t (some index) t1) :
    t1 = t ∧ index + 1 < t.hcap ∧ t.mem.word (htSlot (index + 1) t.handles) = 0 := by
  obtain ⟨index', hslot, hlow⟩ := h hne
  rcases hfound with ⟨heq, hsome⟩ | ⟨hnew, -⟩
  · cases hslot.symm.trans hsome
    exact ⟨heq, hlow⟩
  · cases hslot.symm.trans hnew.full

/-- Where there is room, an open stores into the table only, and a first table takes its own
pages. -/
theorem OpenInv.rest_withEntry (h : OpenInv mem0 r) {t1 : HandleTable} (h1 : TableInv t1)
    (hfound : Found r.table (some index) t1) (hspace : r.table.Spacious)
    (hobj : ObjectPointer obj) {a : Nat} (ha : ¬ (t1.withEntry index obj rights).Owns a) :
    (t1.withEntry index obj rights).mem a = mem0 a := by
  obtain ⟨-, hindex, hfree⟩ := hfound.free
  obtain ⟨-, -, -, -, -, hout⟩ :=
    storeEntry_spec rights ((h1.entry index hindex).gen_eq_zero hfree) hobj.2
  have hown : ¬ t1.Owns a := ha
  have hbehind : index + 1 < t1.hcap := by
    by_cases hnone : r.table.handles = 0
    · rcases hfound with ⟨rfl, hslot⟩ | ⟨hnew, rfl⟩
      · exact absurd hnone (HandleTable.freeSlot_some hslot).1
      · rw [hnew.cap (h.table.noTable hnone)]
        decide
    · obtain ⟨rfl, hlt, -⟩ := hspace.found hnone hfound
      exact hlt
  have hkept : t1.mem a = mem0 a := by
    by_cases hnone : r.table.handles = 0
    · rcases hfound with ⟨rfl, -⟩ | ⟨hnew, -⟩
      · exact h.rest a hown
      · have hempty : ¬ r.table.Owns a := by
          unfold HandleTable.Owns
          rw [h.table.noTable hnone]
          omega
        rw [hnew.rest hnone (h.table.noTable hnone) a hown, h.rest a hempty]
    · obtain ⟨rfl, -⟩ := hspace.found hnone hfound
      exact h.rest a hown
  rw [← hkept]
  refine hout a ?_
  unfold HandleTable.Owns at hown
  unfold htSlot heEntry at *
  omega

theorem OpenInv.handles_ne_zero (h : OpenInv mem0 r) {a : Nat × Nat × Nat} (ha : a ∈ r.opened) :
    r.table.handles ≠ 0 := by
  intro hzero
  obtain ⟨index, hindex, -⟩ := h.entry a ha
  rw [h.table.noTable hzero] at hindex
  exact absurd hindex (not_lt_zero _)

/-- A handle is opened beside the others. -/
theorem OpenInv.opens (h : OpenInv mem0 r) {t1 : HandleTable} (h1 : TableInv t1)
    (hfound : Found r.table (some index) t1) (hspace : r.table.Spacious) (hobj : ObjectPointer obj)
    (hrights : rights < 2 ^ 16) :
    OpenInv mem0 { table := t1.withEntry index obj rights,
                   opened := (mkHandle index 1, obj, rights) :: r.opened } := by
  obtain ⟨-, hindex, hfree⟩ := hfound.free
  have hgen := (h1.entry index hindex).gen_eq_zero hfree
  obtain ⟨-, hdword, hword, -⟩ := storeEntry_spec rights hgen hobj.2
  refine ⟨h1.withEntry hindex hfree hobj, fun a => h.rest_withEntry h1 hfound hspace hobj,
    fun a hmem => ?_⟩
  rcases mem_cons.mp hmem with rfl | ha
  · exact ⟨index, hindex, rfl, hobj.ne_zero, hdword, hword.trans (mod_eq_of_lt hrights)⟩
  obtain ⟨rfl, -, hlow⟩ := hspace.found (h.handles_ne_zero ha) hfound
  refine h.keeps ha rfl rfl fun j hj _ hused => ?_
  refine withEntry_entryBytes _ h1 hindex hfree (fun _ => hlow) hobj hj ?_
  rintro rfl
  exact hused hfree

/-- A handle is closed and the others stay. -/
theorem OpenInv.closes (h : OpenInv mem0 r) {handle : Nat} (huse : r.table.InUse handle) :
    OpenInv mem0 { table := r.table.withoutEntry (htSlot (handleIndex handle) r.table.handles),
                   opened := r.opened.filter fun a => handleIndex a.1 ≠ handleIndex handle } := by
  refine ⟨h.table.withoutEntry (handleIndex handle), fun a ha => ?_, fun a ha => ?_⟩
  · have hown : ¬ r.table.Owns a := ha
    rw [← h.rest a hown]
    refine HandleTable.withoutEntry_apply ?_
    have hlt := huse.1
    unfold HandleTable.Owns at hown
    unfold htSlot heEntry at *
    omega
  obtain ⟨ha, hkept⟩ := mem_filter.mp ha
  refine h.keeps ha rfl rfl fun j hj hhandle _ i hi hi' => HandleTable.withoutEntry_apply ?_
  have hne : j ≠ handleIndex handle := by
    rintro rfl
    rw [hhandle, handleIndex_mkHandle (lt_of_lt_of_le hj h.table.cap)] at hkept
    simp at hkept
  unfold htSlot heEntry at *
  omega

/-- A failed open has at most made a first table: one without room was not there. -/
theorem OpenInv.refused (h : OpenInv mem0 r) {t' : HandleTable} {status : MvStatus}
    (h' : TableInv t')
    (hopened : Opened r.table obj rights (.error status) t') (hspace : r.table.Spacious) :
    OpenInv mem0 { r with table := t' } := by
  rcases hopened with ⟨pages, rfl⟩ | hnew
  · exact ⟨h', h.rest, h.entry⟩
  have hnone : r.table.handles = 0 := by
    by_contra hne
    obtain ⟨index, hsome, -⟩ := hspace hne
    cases hnew.full.symm.trans hsome
  have hzero := h.table.noTable hnone
  refine ⟨h', fun a ha => ?_, fun a ha => absurd hnone (h.handles_ne_zero ha)⟩
  have hempty : ¬ r.table.Owns a := by
    unfold HandleTable.Owns
    rw [hzero]
    omega
  rw [← h.rest a hempty]
  exact hnew.rest hnone hzero a ha

/-- Every legal call keeps what the open handles name. -/
theorem OpenInv.step (h : OpenInv mem0 r) (c : HandleCall) (hlegal : c.Legal r)
    (hspace : c.Spacious r) :
    ∃ r', c.step r = some r' ∧ OpenInv mem0 r' := by
  cases c with
  | opens obj rights all =>
    obtain ⟨result, t', hrun, hinv, hopened⟩ := returns_htOpen h.table hlegal
    cases result with
    | ok handle =>
      refine ⟨_, by rw [HandleCall.step, hrun]; rfl, ?_⟩
      obtain ⟨index, t1, rfl, h1, hfound, rfl⟩ := hopened
      exact h.opens h1 hfound hspace.1 hlegal hspace.2
    | error status => exact ⟨_, by rw [HandleCall.step, hrun]; rfl, h.refused hinv hopened hspace.1⟩
  | closes handle =>
  obtain ⟨result, t', hrun, hpost⟩ := returns_htClose (t := r.table) handle
  cases hentry : htEntry r.table handle with
  | none =>
    rw [hentry] at hpost
    obtain ⟨rfl, rfl⟩ := hpost
    exact ⟨_, by rw [HandleCall.step, hrun]; rfl, h⟩
  | some slot =>
    rw [hentry] at hpost
    obtain ⟨rfl, rfl⟩ := hpost
    refine ⟨_, by rw [HandleCall.step, hrun]; rfl, ?_⟩
    obtain ⟨-, huse, rfl⟩ := (h.table.htEntry_eq_some handle slot).mp hentry
    exact h.closes huse

/-- In a run whose opens all find room, every open handle leads to its object and rights, and no
byte outside the task's own table changes, so neither do the tables of other tasks. -/
theorem openHandles_resolve (mem : Buffer) (pages : List Nat) (hpages : TablePages pages)
    (calls : List HandleCall)
    (hlegal : Runs.AlongAll HandleCall.step HandleCall.Legal calls (HandleRun.initial mem pages))
    (hspace :
      Runs.AlongAll HandleCall.step HandleCall.Spacious calls (HandleRun.initial mem pages)) :
    ∃ r, Runs.afterAll HandleCall.step (HandleRun.initial mem pages) calls = some r ∧
      (∀ handle obj rights, (handle, obj, rights) ∈ r.opened → r.table.Resolves handle obj rights) ∧
      ∀ a, ¬ r.table.Owns a → r.table.mem a = mem a := by
  have hinit : OpenInv mem (HandleRun.initial mem pages) :=
    ⟨TableInv.initial hpages, fun _ _ => rfl, fun _ ha => absurd ha (not_mem_nil)⟩
  obtain ⟨r, hr, hinv⟩ := (hlegal.and hspace).invariant (fun c r hr hc => hr.step c hc.1 hc.2) hinit
  exact ⟨r, hr, fun handle obj rights ha => hinv.resolves ha, hinv.rest⟩

/-- Two handles are opened, the second with an entry behind it that was never used. -/
theorem openHandles_resolve_two :
    ∃ r, Runs.afterAll HandleCall.step (HandleRun.initial (fun _ => 0) [0x900000])
        [.opens 0x1000000 1 1, .opens 0x1000200 0x10000 3] = some r ∧
      (∀ handle obj rights, (handle, obj, rights) ∈ r.opened → r.table.Resolves handle obj rights) ∧
      ∀ a, ¬ r.table.Owns a → r.table.mem a = 0 := by
  refine openHandles_resolve _ _ tablePages_singleton _
    ⟨⟨by decide, by decide⟩, fun _ _ => ⟨⟨by decide, by decide⟩, fun _ _ => trivial⟩⟩
    ⟨⟨fun hne => absurd rfl hne, by decide⟩, fun r hr => ⟨⟨?_, by decide⟩, fun _ _ => trivial⟩⟩
  have hfirst :
    (HandleCall.step (.opens 0x1000000 1 1) (HandleRun.initial (fun _ => 0) [0x900000])).map
      (fun r => (r.table.freeSlot, decide (2 < r.table.hcap),
        r.table.mem.word (htSlot 2 r.table.handles))) =
      some (some 1, true, 0) := by
    decide +kernel
  rw [hr] at hfirst
  obtain ⟨hslot, hrest⟩ := Prod.mk.inj (Option.some.inj hfirst)
  obtain ⟨hcap, hlow⟩ := Prod.mk.inj hrest
  exact fun _ => ⟨1, hslot, of_decide_eq_true hcap, hlow⟩

/-- The handle of entry 1 leads to another object once entry 0 is used again. -/
theorem reopenedNeighbour_not_resolves :
    Runs.AlongAll HandleCall.step HandleCall.Legal
        [.opens 0x1000000 1 1, .opens 0x1000200 1 1, .closes 0x40000, .opens 0x1000400 1 1]
        (HandleRun.initial (fun _ => 0) [0x900000]) ∧
      ∃ r, Runs.afterAll HandleCall.step (HandleRun.initial (fun _ => 0) [0x900000])
          [.opens 0x1000000 1 1, .opens 0x1000200 1 1, .closes 0x40000, .opens 0x1000400 1 1] =
          some r ∧
        (0x40004, 0x1000200, 1) ∈ r.opened ∧ htUse r.table 0x40004 1 = .ok 0x1000000 := by
  have hpointers : ∀ obj ∈ [0x1000000, 0x1000200, 0x1000400], ObjectPointer obj := by
    intro obj hobj
    simp only [mem_cons, not_mem_nil, or_false] at hobj
    rcases hobj with rfl | rfl | rfl <;> exact ⟨by decide, by decide⟩
  refine ⟨⟨hpointers _ (by simp), fun _ _ => ⟨hpointers _ (by simp), fun _ _ => ⟨trivial, fun _ _ =>
    ⟨hpointers _ (by simp), fun _ _ => trivial⟩⟩⟩⟩, ?_⟩
  have hrun : (Runs.afterAll HandleCall.step (HandleRun.initial (fun _ => 0) [0x900000])
      [.opens 0x1000000 1 1, .opens 0x1000200 1 1, .closes 0x40000, .opens 0x1000400 1 1]).map
        (fun r => (r.opened, (htUse r.table 0x40004 1).toOption)) =
      some ([(0x40000, 0x1000400, 1), (0x40004, 0x1000200, 1)], some 0x1000000) := by
    decide +kernel
  obtain ⟨r, hr, hval⟩ := Option.map_eq_some_iff.mp hrun
  obtain ⟨hopened, huse⟩ := Prod.mk.inj hval
  refine ⟨r, hr, ?_, ?_⟩
  · rw [hopened]
    decide
  · cases h : htUse r.table 0x40004 1 with
    | error status => rw [h] at huse; cases huse
    | ok obj => rw [h] at huse; cases huse; rfl

end Mellivora
