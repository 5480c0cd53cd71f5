import Mellivora.Kernel.Proofs.SettAccessProofs
import Mellivora.Kernel.SessionAccounts

/-!
# Accounts are a map with a uid of its own for each name

As long as no name has a separator and no name is added twice, the keys below the accounts' own key
are those of the ledger, each with its four values. The values bound their number, so the scan for a
uid sees all of them.
-/

namespace Mellivora

open Runs Function List

variable {s s' : Sett} {name n path : Text} {kdf : Kdf} {l : Ledger} {a : Account}

/-! ## Words -/

theorem settWord_space (room : Nat) (line : Text) :
    settWord room (32 :: line) = settWord room line := by
  unfold settWord
  rw [dropWhile_cons_of_pos (by decide)]

/-- A word is read up to the blank. -/
theorem settWord_word {room : Nat} {word rest : Text} (h : IsWord room word)
    (hrest : rest.head? = none ∨ rest.head? = some 32) :
    settWord room (word ++ rest) = some (word, rest) := by
  obtain ⟨hne, hlength, hspace⟩ := h
  have htake : (word ++ rest).takeWhile (· != 0x20) = word := by
    have hstop : rest.takeWhile (· != 0x20) = [] := by
      cases rest with
      | nil => rfl
      | cons c rest =>
        rcases hrest with hrest | hrest
        · simp at hrest
        · rw [Option.some.inj hrest]
          rfl
    rw [takeWhile_append_of_pos, hstop, append_nil]
    intro c hc
    simp only [bne_iff_ne, ne_eq]
    rintro rfl
    exact hspace hc
  have hdrop : (word ++ rest).dropWhile (· == 0x20) = word ++ rest := by
    cases word with
    | nil => exact absurd rfl hne
    | cons c word =>
      rw [cons_append, dropWhile_cons_of_neg]
      simp only [beq_iff_eq]
      rintro rfl
      exact hspace (mem_cons_self ..)
  have hroom : room ≠ 0 := by
    have := length_pos_of_ne_nil hne
    omega
  unfold settWord
  simp only [hdrop]
  rw [if_neg (by simp [hne, hroom]), htake, take_of_length_le hlength, drop_left]

/-- The line of `add` is taken apart. -/
theorem accountCommand_add {m : Moment} {password : Text} (hname : IsWord 15 name)
    (hpassword : IsWord 31 password) :
    accountCommand kdf m s (AccountOp.add name password m).line =
    accountAdd kdf m s name password := by
  have hverb : settWord 16 ([97, 100, 100] ++ (32 :: (name ++ 32 :: password))) =
      some ([97, 100, 100], 32 :: (name ++ 32 :: password)) :=
    settWord_word (by unfold IsWord; decide) (.inr rfl)
  have hline : (AccountOp.add name password m).line =
    [97, 100, 100] ++ (32 :: (name ++ 32 :: password)) := by
    simp [AccountOp.line]
  have hlast : settWord 31 (32 :: password) = some (password, []) := by
    rw [settWord_space, ← append_nil password, settWord_word hpassword (.inl rfl), append_nil]
  unfold accountCommand
  rw [hline, hverb]
  dsimp only
  rw [if_pos (by decide), settWord_space, settWord_word hname (.inr rfl)]
  dsimp only
  rw [hlast]

/-- The line of `del` is taken apart. -/
theorem accountCommand_del {m : Moment} (hname : IsWord 15 name) :
    accountCommand kdf m s (AccountOp.del name m).line = accountDel s name := by
  have hverb : settWord 16 ([100, 101, 108] ++ (32 :: name)) = some ([100, 101, 108], 32 :: name) :=
    settWord_word (by unfold IsWord; decide) (.inr rfl)
  have hline : (AccountOp.del name m).line = [100, 101, 108] ++ (32 :: name) := by
    simp [AccountOp.line]
  have hlast : settWord 15 (32 :: name) = some (name, []) := by
    rw [settWord_space, ← append_nil name, settWord_word hname (.inl rfl), append_nil]
  unfold accountCommand
  rw [hline, hverb]
  dsimp only
  rw [if_neg (by decide), if_pos (by decide), hlast]

/-! ## The paths of accounts -/

@[simp] theorem folded_pathOfAccount (name : Text) :
    folded (pathOfAccount name) = folded accPrefix ++ settSep :: folded name := by
  rw [pathOfAccount, folded_append, folded_cons, settUpper_sep]

theorem folded_pathOfAccount_inj :
    folded (pathOfAccount name) = folded (pathOfAccount n) ↔ folded name = folded n := by
  rw [folded_pathOfAccount, folded_pathOfAccount, append_cancel_left_eq, cons.injEq]
  simp

theorem accPrefix_spaced :
    ∀ i < 35, accPrefix[i]? = some settSep → ∃ c, accPrefix[i + 1]? = some c ∧ c ≠ settSep := by
  have h : ∀ i < 35, accPrefix[i]? = some settSep → (accPrefix[i + 1]?).any (· ≠ settSep) =
    true := by decide
  intro i hi hsep
  have := h i hi hsep
  cases hc : accPrefix[i + 1]? with
  | none =>
    rw [hc] at this
    simp at this
  | some c =>
    rw [hc] at this
    exact ⟨c, rfl, by simpa using this⟩

/-- The path of an account is canonical. -/
theorem canonical_pathOfAccount (hne : name ≠ []) (hlength : name.length ≤ 15)
    (hsep : settSep ∉ name) :
    Canonical (pathOfAccount name) := by
  have hstarts : accPrefix.length = 35 := rfl
  refine ⟨?_, .inr ⟨rfl, fun i hi => ?_⟩⟩
  · rw [pathOfAccount, length_append, length_cons, hstarts]
    have : settKeyPath = 128 := rfl
    omega
  unfold pathOfAccount at hi ⊢
  rcases Nat.lt_trichotomy i 35 with hlt | heq | hgt
  · rw [getElem?_append_left (by omega)] at hi
    obtain ⟨c, hc, hcsep⟩ := accPrefix_spaced i hlt hi
    refine ⟨c, ?_, hcsep⟩
    rw [List.getElem?_append_left (List.getElem?_eq_some_iff.mp hc).1]
    exact hc
  · grind
  · grind

/-- Below an account's path is only that account. -/
theorem under_pathOfAccount (hsep : settSep ∉ n) :
    Sett.under (pathOfAccount name) (pathOfAccount n) = true ↔ folded n = folded name := by
  constructor
  · intro h
    obtain ⟨rest, hrest, hhead⟩ := Sett.under_iff.mp h
    rw [folded_pathOfAccount, folded_pathOfAccount, append_assoc,
      append_cancel_left_eq, cons_append,
      cons.injEq] at hrest
    rcases hhead with hnil | hcons
    · rw [head?_eq_none_iff.mp hnil, append_nil] at hrest
      exact hrest.2
    -- Otherwise there would be a separator in the name.
    obtain ⟨rest', rfl⟩ : ∃ rest', rest = settSep :: rest' := by
      cases rest with
      | nil => simp at hcons
      | cons c rest => exact ⟨rest, by rw [Option.some.inj hcons]⟩
    have hmem : settSep ∈ folded n := by
      rw [hrest.2]
      simp
    exact absurd (sep_mem_folded.mp hmem) hsep
  · intro h
    rw [Sett.under_congr (folded_pathOfAccount_inj.mpr h)]
    exact Sett.under_self _

theorem under_accPrefix_pathOfAccount (name : Text) :
    Sett.under accPrefix (pathOfAccount name) = true :=
  Sett.under_iff.mpr ⟨settSep :: folded name, folded_pathOfAccount name, .inr rfl⟩

theorem cutOf_pathOfAccount {p : Text} (hsep : settSep ∉ name)
    (hcut : Sett.CutOf (pathOfAccount name) p)
    (hunder : Sett.under accPrefix p = true) : p = accPrefix ∨ p = pathOfAccount name := by
  obtain ⟨rest, hwhole, hhead⟩ := hcut
  obtain ⟨behind, hbehind, -⟩ := Sett.under_iff.mp hunder
  have hlength := congrArg length hbehind
  rw [length_append, length_folded, length_folded] at hlength
  have hsplit : accPrefix ++ settSep :: name = p ++ rest := hwhole
  rcases append_eq_append_iff.mp hsplit with ⟨mid, rfl, hmid⟩ | ⟨mid, hmid, rfl⟩
  · cases mid with
    | nil => exact .inl (append_nil _)
    | cons c mid =>
    right
    rw [cons_append] at hmid
    obtain ⟨rfl, hname⟩ := cons.inj hmid
    cases rest with
    | nil =>
      rw [append_nil] at hname
      rw [pathOfAccount, hname]
    | cons d rest =>
      rcases hhead with hhead | hhead
      · simp at hhead
      · grind
  · left
    have hmidlen := congrArg length hmid
    rw [length_append] at hmidlen
    have : mid = [] := length_eq_zero_iff.mp (by omega)
    rw [hmid, this, append_nil]

/-! ## The accounts in the Sett -/

/-- The values of an account's key. -/
def accValNames : List Text := [accValUid, accValAlgo, accValSalt, accValHash]

theorem map_fst_accountValues (uid : Nat) (salt hash : List UInt8) :
    (accountValues uid salt hash).map (·.1) = accValNames :=
  rfl

theorem accountValues_short {uid : Nat} {salt hash : List UInt8} {e : Text × Nat × List UInt8}
    (he : e ∈ accountValues uid salt hash) : e.1.length < settValName - 1 := by
  have hall : ∀ value ∈ accValNames, value.length < settValName - 1 := by decide
  refine hall e.1 ?_
  rw [← map_fst_accountValues uid salt hash]
  exact mem_map_of_mem he

theorem accountValues_distinct (uid : Nat) (salt hash : List UInt8) :
    (accountValues uid salt hash).Pairwise fun e e' => folded e.1 ≠ folded e'.1 := by
  have hall : (accValNames.map folded).Pairwise (· ≠ ·) := by decide
  rw [← map_fst_accountValues uid salt hash, map_map] at hall
  exact pairwise_map.mp hall

/-- The keys below the accounts' own key are those of the ledger, each with its values. -/
structure Registered (kdf : Kdf) (s : Sett) (l : Ledger) : Prop where
  tree : s.Tree
  named : ∀ n a, l n = some a → ∃ name, n = folded name ∧ settSep ∉ name ∧ name.length ≤ 15
  keys : ∀ k ∈ s.keys, Sett.under accPrefix k.path = true → folded k.path = folded accPrefix ∨
    ∃ name, folded k.path = folded (pathOfAccount name) ∧ (l (folded name)).isSome
  values : ∀ name a, l (folded name) = some a →
    ∀ e ∈ accountValues a.uid a.salt (kdf.hash a.password a.salt), s.lookup (pathOfAccount name)
    e.1 = some e.2
  salts : ∀ n a, l n = some a → a.salt.length = 8
  uids : ∀ n a, l n = some a → 1000 ≤ a.uid ∧ a.uid < 2 ^ 32
  own : ∀ n n' a a', l n = some a → l n' = some a' → a.uid = a'.uid → n = n'

attribute [local grind cases] Registered

theorem folded_accPrefix_ne (name : Text) : folded (pathOfAccount name) ≠ folded accPrefix := by
  intro h
  have := congrArg length h
  rw [length_folded, length_folded, pathOfAccount, length_append, length_cons] at this
  omega

/-- Without an account there is no key. -/
theorem Registered.keyFind_eq_none (h : Registered kdf s l) (hnone : l (folded name) = none) :
    s.keyFind (pathOfAccount name) = none := by
  rw [Sett.keyFind_eq_none]
  intro k hk hfold
  have hunder : Sett.under accPrefix k.path = true := by
    rw [← Sett.under_congr hfold]
    exact under_accPrefix_pathOfAccount name
  rcases h.keys k hk hunder with hpath | ⟨name', hpath, hsome⟩
  · exact folded_accPrefix_ne name (hfold.trans hpath)
  · have hname := folded_pathOfAccount_inj.mp (hfold.trans hpath)
    rw [← hname, hnone] at hsome
    exact absurd hsome (by simp)

theorem Registered.lookup_eq_none (h : Registered kdf s l) (hnone : l (folded name) = none)
    (value : Text) :
    s.lookup (pathOfAccount name) value = none := by
  unfold Sett.lookup
  rw [h.keyFind_eq_none hnone]
  rfl

theorem Registered.keyFind_isSome (h : Registered kdf s l) (ha : l (folded name) = some a) :
    (s.keyFind (pathOfAccount name)).isSome := by
  have hlookup := h.values name a ha _ (mem_cons_self ..)
  unfold Sett.lookup at hlookup
  cases hfind : s.keyFind (pathOfAccount name) with
  | none =>
    simp [hfind] at hlookup
  | some key => rfl

/-- The user number stored is the ledger's. -/
theorem Registered.uid_eq (h : Registered kdf s l) (name : Text) :
    s.kvGetU32 (pathOfAccount name) accValUid = (l (folded name)).map (·.uid) := by
  cases ha : l (folded name) with
  | none => exact Sett.kvGetU32_eq_none (h.lookup_eq_none ha _)
  | some a =>
    have hlookup :=
      h.values name a ha (accValUid, settTypeU32, dwordBytes a.uid) (by simp [accountValues])
    exact Sett.kvGetU32_of_lookup (h.uids _ a ha).2 hlookup

theorem Sett.kvGetBin_of_lookup {value : Text} {data : List UInt8} {len : Nat}
    (hlen : data.length = len)
    (h : s.lookup path value = some (settTypeBinary, data)) : s.kvGetBin path value len =
    some data := by
  rw [lookup_eq_kvLookup] at h
  obtain ⟨v, hv, heq⟩ := Option.map_eq_some_iff.mp h
  obtain ⟨htype, hbytes⟩ := Prod.mk.inj heq
  have hvlen : v.len = len := by
    rw [← hlen, ← hbytes]
    simp [bytes]
  unfold kvGetBin
  rw [hv, Option.bind_some, if_pos ⟨htype, hvlen⟩, hbytes]

/-- What the login loads is what the ledger says. -/
theorem Registered.loadAccount_eq (h : Registered kdf s l) (name : Text) :
    s.loadAccount name = (l (folded name)).map fun a =>
    (a.uid, a.salt, kdf.hash a.password a.salt) := by
  unfold Sett.loadAccount
  dsimp only
  rw [h.uid_eq name]
  cases ha : l (folded name) with
  | none => rfl
  | some a =>
  have hvalues := h.values name a ha
  have halgo := Sett.kvGetU32_of_lookup (by decide)
    (hvalues (accValAlgo, settTypeU32, dwordBytes sessKdfScheme) (by simp [accountValues]))
  have hsalt :=
    Sett.kvGetBin_of_lookup (h.salts _ a ha)
    (hvalues (accValSalt, settTypeBinary, a.salt) (by simp [accountValues]))
  have hhash := Sett.kvGetBin_of_lookup (kdf.length a.password a.salt)
    (hvalues (accValHash, settTypeBinary, kdf.hash a.password a.salt) (by simp [accountValues]))
  simp only [Option.map_some, Option.bind_some, halgo, hsalt, hhash, ne_eq,
    not_true_eq_false, if_false]

theorem Registered.keeps (h : Registered kdf s l) : Keeps kdf s l := by
  refine ⟨h.uid_eq, h.own, fun n a ha => (h.uids n a ha).1, fun name password => ?_⟩
  unfold Sett.verify
  rw [h.loadAccount_eq name]
  cases l (folded name) with
  | none => rfl
  | some a => rfl

/-! ## The scan for a uid -/

/-- The names of the accounts that have a key. -/
def Sett.accountNames (s : Sett) : List Text :=
  s.keys.filterMap fun k => Sett.childComponent accPrefix 23 k.path

theorem folded_drop (p : Text) (i : Nat) : folded (p.drop i) = (folded p).drop i := map_drop

theorem Sett.childComponent_spec {above p comp : Text} {room : Nat}
    (h : childComponent above room p = some comp) :
    folded p = folded above ++ settSep :: folded comp ∧ settSep ∉ comp := by
  unfold childComponent at h
  dsimp only at h
  split at h
  · next hcond =>
    obtain ⟨hstarts, hat, hsep, -⟩ := hcond
    obtain rfl := Option.some.inj h
    refine ⟨?_, hsep⟩
    obtain ⟨rest, hrest⟩ := settPrefix_iff.mp hstarts
    have hdrop : (folded p).drop above.length = rest := by
      rw [← hrest, ← length_folded above, drop_left]
    have hcons : p.drop above.length = settSep :: p.drop (above.length + 1) := by
      obtain ⟨hlt, hget⟩ := List.getElem?_eq_some_iff.mp hat
      rw [← hget, getElem_cons_drop]
    rw [← hrest, ← hdrop, ← folded_drop, hcons, folded_cons, settUpper_sep]
  · exact absurd h (by simp)

theorem Sett.childComponent_of_folded {p : Text} (hfold : folded p = folded (pathOfAccount name))
    (hsep : settSep ∉ name)
    (hlength : name.length ≤ 23) : ∃ comp, childComponent accPrefix 23 p = some comp ∧
    folded comp = folded name := by
  rw [folded_pathOfAccount] at hfold
  have hcomp : folded (p.drop (accPrefix.length + 1)) = folded name := by
    rw [folded_drop, hfold, ← length_folded accPrefix, drop_append]
    simp
  have hat : p[accPrefix.length]? = some settSep := by
    have hget : (folded p)[accPrefix.length]? = some settSep := by
      rw [hfold, getElem?_append_right (by rw [length_folded]), length_folded, Nat.sub_self]
      rfl
    rw [folded, getElem?_map] at hget
    obtain ⟨c, hc, hupper⟩ := Option.map_eq_some_iff.mp hget
    rw [hc, settUpper_eq_sep.mp hupper]
  have hnosep : settSep ∉ p.drop (accPrefix.length + 1) := by
    rw [← sep_mem_folded, hcomp, sep_mem_folded]
    exact hsep
  have hshort : (p.drop (accPrefix.length + 1)).length ≤ 23 := by
    rw [← length_folded, hcomp, length_folded]
    exact hlength
  refine ⟨_, ?_, hcomp⟩
  unfold childComponent
  exact if_pos ⟨settPrefix_iff.mpr ⟨_, hfold.symm⟩, hat, hnosep, hshort⟩

/-- The user numbers of accounts. -/
def Sett.uidsOf (s : Sett) (names : List Text) : List Nat :=
  names.filterMap fun comp => s.kvGetU32 (pathOfAccount comp) accValUid

/-- The scan finds the largest user number. -/
theorem Sett.uidScan_eq (s : Sett) (left i highest : Nat) :
    s.uidScan left i highest = (s.uidsOf ((s.accountNames.drop i).take left)).foldl max
    highest := by
  induction left generalizing i highest with
  | zero => simp [uidScan, uidsOf]
  | succ left ih =>
  unfold uidScan
  rw [show s.childName i accPrefix 23 = s.accountNames[i]? from rfl]
  cases hi : s.accountNames[i]? with
  | none =>
    rw [drop_eq_nil_of_le (getElem?_eq_none_iff.mp hi)]
    rfl
  | some name =>
  obtain ⟨hlt, rfl⟩ := List.getElem?_eq_some_iff.mp hi
  rw [drop_eq_getElem_cons hlt, take_succ_cons]
  simp only [uidsOf, filterMap_cons, ih]
  cases s.kvGetU32 (pathOfAccount s.accountNames[i]) accValUid with
  | none => rfl
  | some uid => grind

theorem foldl_max_spec (uids : List Nat) (highest : Nat) :
    highest ≤ uids.foldl max highest ∧ (∀ uid ∈ uids, uid ≤ uids.foldl max highest) ∧
      (uids.foldl max highest = highest ∨ uids.foldl max highest ∈ uids) := by
  induction uids generalizing highest with
  | nil => simp
  | cons uid uids ih => grind

theorem Sett.Tree.accountNames_distinct (h : s.Tree) :
    s.accountNames.Pairwise fun x y => folded x ≠ folded y := by
  refine h.distinct.filterMap _ ?_
  intro k k' hne x hx y hy hfold
  have hx' := childComponent_spec hx
  have hy' := childComponent_spec hy
  exact hne (by rw [hx'.1, hy'.1, hfold])

/-- Every name listed is an account. -/
theorem Registered.accountNames (h : Registered kdf s l) {comp : Text}
    (hcomp : comp ∈ s.accountNames) :
    ∃ a, l (folded comp) = some a := by
  obtain ⟨k, hk, hchild⟩ := mem_filterMap.mp hcomp
  obtain ⟨hfold, hsep⟩ := Sett.childComponent_spec hchild
  rw [← folded_pathOfAccount] at hfold
  have hunder : Sett.under accPrefix k.path = true := by
    rw [Sett.under_congr hfold]
    exact under_accPrefix_pathOfAccount comp
  rcases h.keys k hk hunder with hpath | ⟨name', hpath, hsome⟩
  · exact absurd (hfold.symm.trans hpath) (folded_accPrefix_ne comp)
  · rw [folded_pathOfAccount_inj.mp (hfold.symm.trans hpath)]
    exact Option.isSome_iff_exists.mp hsome

theorem Sett.Tree.entry_of_lookup {value : Text} {x : Nat × List UInt8} (h : s.Tree)
    (hx : s.lookup path value = some x) :
    ∃ v ∈ s.vals, ∃ k, s.keys[v.key]? = some k ∧ folded path = folded k.path ∧
    folded value = folded v.name := by
  unfold lookup at hx
  obtain ⟨key, hkey, hvalue⟩ := Option.bind_eq_some_iff.mp hx
  obtain ⟨k, hk, hfold⟩ := keyFind_spec hkey
  obtain ⟨v, hv, ⟨rfl, hname⟩, -⟩ := (value?_eq_some h.names').mp hvalue
  exact ⟨v, hv, k, hk, hfold, hname⟩

/-- Each account has four values, so there are no more than sixteen of them. -/
theorem Registered.length_accountNames (h : Registered kdf s l) : s.accountNames.length ≤ 16 := by
  let slots : Text → List (Text × Text) := fun comp =>
    (accValNames.map folded).map fun value => (folded (pathOfAccount comp), value)
  have hnodup : (s.accountNames.flatMap slots).Nodup := by
    rw [nodup_flatMap]
    refine ⟨fun comp _ => ?_, h.tree.accountNames_distinct.imp fun {x y} hne e hx hy => ?_⟩
    · exact List.Nodup.map (Prod.mk_right_injective _) (by decide)
    · obtain ⟨_, -, rfl⟩ := mem_map.mp hx
      obtain ⟨_, -, heq⟩ := mem_map.mp hy
      exact hne (folded_pathOfAccount_inj.mp (Prod.mk.inj heq).1.symm)
  have hsub : s.accountNames.flatMap slots ⊆
      s.vals.map fun v => (folded ((s.keys[v.key]?.map (·.path)).getD []), folded v.name) := by
    intro e he
    obtain ⟨comp, hcomp, hslot⟩ := mem_flatMap.mp he
    obtain ⟨_, hfolded, rfl⟩ := mem_map.mp hslot
    obtain ⟨value, hvalue, rfl⟩ := mem_map.mp hfolded
    obtain ⟨a, ha⟩ := h.accountNames hcomp
    rw [← map_fst_accountValues a.uid a.salt (kdf.hash a.password a.salt)] at hvalue
    obtain ⟨entry, hentry, rfl⟩ := mem_map.mp hvalue
    obtain ⟨v, hv, k, hk, hpath, hname⟩ := h.tree.entry_of_lookup (h.values comp a ha entry hentry)
    refine mem_map.mpr ⟨v, hv, ?_⟩
    rw [hk, Option.map_some, Option.getD_some, hpath, hname]
  have hlength := (hnodup.subperm hsub).length_le
  have hvals := h.tree.valsFit
  have hfour : (s.accountNames.flatMap slots).length = 4 * s.accountNames.length := by
    have : accValNames.length = 4 := rfl
    simp [slots, length_flatMap, this]
    omega
  rw [length_map, hfour] at hlength
  have : settMaxValues = 64 := rfl
  omega

/-- The uid found is higher than that of every account, and is not one past the last. -/
theorem Registered.uidAlloc_spec (h : Registered kdf s l)
    (hlast : ∀ n a, l n = some a → a.uid ≠ 2 ^ 32 - 1) :
    1000 ≤ s.uidAlloc ∧ s.uidAlloc < 2 ^ 32 ∧ ∀ n a, l n = some a → a.uid < s.uidAlloc := by
  have hscan : s.uidScan 32 0 999 = (s.uidsOf s.accountNames).foldl max 999 := by
    have hcount := h.length_accountNames
    rw [s.uidScan_eq, drop_zero, take_of_length_le (by omega)]
  obtain ⟨hlow, hall, hend⟩ := foldl_max_spec (s.uidsOf s.accountNames) 999
  rw [← hscan] at hlow hall hend
  have hmax : s.uidScan 32 0 999 < 2 ^ 32 - 1 := by
    rcases hend with hend | hend
    · rw [hend]
      decide
    obtain ⟨comp, -, hcomp⟩ := mem_filterMap.mp hend
    rw [h.uid_eq comp] at hcomp
    obtain ⟨a, ha, huid⟩ := Option.map_eq_some_iff.mp hcomp
    have h1 := (h.uids _ a ha).2
    have h2 := hlast _ a ha
    omega
  have halloc : s.uidAlloc = s.uidScan 32 0 999 + 1 := by
    unfold Sett.uidAlloc
    exact Nat.mod_eq_of_lt (by omega)
  refine ⟨by omega, by omega, fun n a ha => ?_⟩
  obtain ⟨name, rfl, hsep, hlength⟩ := h.named n a ha
  obtain ⟨key, hkey⟩ := Option.isSome_iff_exists.mp (h.keyFind_isSome ha)
  obtain ⟨k, hk, hfold⟩ := Sett.keyFind_spec hkey
  obtain ⟨comp, hchild, hcomp⟩ := Sett.childComponent_of_folded hfold.symm hsep (by omega)
  have hmem : comp ∈ s.accountNames := mem_filterMap.mpr ⟨k, mem_of_getElem? hk, hchild⟩
  have huid : s.kvGetU32 (pathOfAccount comp) accValUid = some a.uid := by
    rw [h.uid_eq comp, hcomp, ha]
    rfl
  have := hall a.uid (mem_filterMap.mpr ⟨comp, hmem, huid⟩)
  omega

/-! ## Adding an account -/

/-- New values of one key, stored one after the other. -/
theorem Sett.Tree.kvSetAll_room (h : s.Tree) (es : List (Text × Nat × List UInt8))
    (hcanonical : Canonical path)
    (hes : ∀ e ∈ es, s.lookup path e.1 = none ∧ e.1.length < settValName - 1)
    (hdistinct : es.Pairwise fun e e' => folded e.1 ≠ folded e'.1)
    (hkeys : (s.keyFind path).isSome ∨
      s.keys.length + s.missingFrom [settSep] path.tail ≤ settMaxKeys)
    (hvals : s.vals.length + es.length ≤ settMaxValues)
    (harena : s.arenaUsed + (es.map (·.2.2.length)).sum ≤ settArena) :
    ∃ s', Sett.kvSetAll path es s = (true, s') ∧ s'.Tree ∧
      (∀ e ∈ es, s'.lookup path e.1 = some e.2) ∧
      (∀ p v, folded p ≠ folded path ∨ (∀ e ∈ es, folded v ≠ folded e.1) →
        s'.lookup p v = s.lookup p v) ∧
      ∀ k ∈ s'.keys, k ∈ s.keys ∨ CutOf path k.path := by
  induction es generalizing s with
  | nil => exact ⟨s, rfl, h, by simp, fun _ _ _ => rfl, fun k hk => .inl hk⟩
  | cons e es ih =>
  obtain ⟨value, type, data⟩ := e
  obtain ⟨hfirst, hothers⟩ := pairwise_cons.mp hdistinct
  obtain ⟨hnone, hshort⟩ := hes _ (mem_cons_self ..)
  rw [length_cons] at hvals
  rw [map_cons, sum_cons] at harena
  dsimp only at harena hnone hshort hfirst
  obtain ⟨s1, hset, hstored⟩ :=
    h.kvSet_room type data hcanonical hnone hshort hkeys (by omega) (by omega)
  have hes1 : ∀ e ∈ es, s1.lookup path e.1 = none ∧ e.1.length < settValName - 1 := by
    intro e he
    obtain ⟨hnone', hshort'⟩ := hes e (mem_cons_of_mem _ he)
    refine ⟨?_, hshort'⟩
    rw [hstored.lookup, if_neg]
    · exact hnone'
    · exact fun hsame => hfirst e he hsame.2.symm
  obtain ⟨s', hall, htree, hvalues, hframe, hcuts⟩ :=
    ih hstored.tree hes1 hothers (.inl hstored.found)
    (by rw [hstored.vals]; omega) (by rw [hstored.used]; omega)
  refine ⟨s', ?_, htree, fun e he => ?_, fun p v hother => ?_, fun k hk => ?_⟩
  · rw [Sett.kvSetAll, hset]
    exact hall
  · rcases mem_cons.mp he with rfl | he
    · rw [hframe path value (.inr hfirst), hstored.lookup, if_pos ⟨rfl, rfl⟩]
    · exact hvalues e he
  · rw [hframe, hstored.lookup, if_neg]
    · rintro ⟨hp, hv⟩
      rcases hother with hother | hother
      · exact hother hp
      · exact hother _ (mem_cons_self ..) hv
    · grind
  · rcases hcuts k hk with hk | hcut
    · exact hstored.keys k hk
    · exact .inr hcut

theorem length_salt (m : Moment) : m.salt.length = 8 := by
  rw [Moment.salt, length_append, Sett.length_dwordBytes, Sett.length_dwordBytes]

/-- `add` of a new name registers it. -/
theorem Registered.add (h : Registered kdf s l) (m : Moment) (password : Text) (hne : name ≠ [])
    (hlength : name.length ≤ 15)
    (hsep : settSep ∉ name) (hnone : l (folded name) = none) (hlast : ∀ n a, l n = some a →
      a.uid ≠ 2 ^ 32 - 1)
    (hroom : s.Room name) :
    ∃ s', accountAdd kdf m s name password = (if m.saved then .added else .failed, s') ∧
      Registered kdf s'
      (Function.update l (folded name) (some { uid := s.uidAlloc, salt := m.salt, password })) := by
  obtain ⟨hkeysRoom, hvalsRoom, harenaRoom⟩ := hroom
  obtain ⟨hhigh, hfits, hmore⟩ := h.uidAlloc_spec hlast
  have hcanonical := canonical_pathOfAccount hne hlength hsep
  obtain ⟨s', hset, htree, hvalues, hframe, hcuts⟩ := h.tree.kvSetAll_room
    (accountValues s.uidAlloc m.salt (kdf.hash password m.salt)) hcanonical
    (fun e he => ⟨h.lookup_eq_none hnone _, accountValues_short he⟩) (accountValues_distinct ..)
    (.inr hkeysRoom) hvalsRoom
    (by
      simp only [accountValues, map_cons, map_nil, sum_cons, sum_nil, Sett.length_dwordBytes,
        length_salt, kdf.length]
      omega)
  refine ⟨s'.compact, ?_, ?_⟩
  · unfold accountAdd accountWrite
    rw [h.uid_eq name, hnone]
    dsimp only [Option.map_none]
    rw [hset]
  have hother : ∀ n, folded n ≠ folded name → ∀ v, s'.compact.lookup (pathOfAccount n) v =
    s.lookup (pathOfAccount n) v := by
    intro n hn v
    rw [Sett.lookup_compact]
    exact hframe _ _ (.inl fun hfold => hn (folded_pathOfAccount_inj.mp hfold))
  have hledger :
    ∀ n, update l (folded name) (some { uid := s.uidAlloc, salt := m.salt, password }) n =
      if n = folded name then some { uid := s.uidAlloc, salt := m.salt, password } else l n :=
        fun n => update_apply ..
  have hsalt := length_salt m
  obtain ⟨-, hnamed, hkeys, hold, hsalts, huids, hown⟩ := h
  refine ⟨htree.compact, by grind, fun k hk hunder => ?_,
    fun n a ha e he => ?_, by grind, by grind, by grind⟩
  · rcases hcuts k hk with hk | hcut
    · grind
    · rcases cutOf_pathOfAccount hsep hcut hunder with hpath | hpath
      · exact .inl (by rw [hpath])
      · exact .inr ⟨name, by rw [hpath], by grind⟩
  · by_cases hn : folded n = folded name
    · rw [hledger, if_pos hn] at ha
      obtain rfl := Option.some.inj ha
      rw [Sett.lookup_congr (folded_pathOfAccount_inj.mpr hn), Sett.lookup_compact]
      exact hvalues e he
    · grind

/-! ## Deleting an account -/

/-- `del` removes the account. -/
theorem Registered.del (h : Registered kdf s l) (hne : name ≠ []) (hlength : name.length ≤ 15)
    (hsep : settSep ∉ name) :
    ∃ s', accountDel s name = (if (l (folded name)).isSome then .deleted else .noSuch, s') ∧
      Registered kdf s' (Function.update l (folded name) none) := by
  have hcanonical := canonical_pathOfAccount hne hlength hsep
  obtain ⟨hmissing, hthere⟩ := h.tree.kvDelKey hcanonical
  unfold accountDel
  cases ha : l (folded name) with
  | none =>
    rw [hmissing (h.keyFind_eq_none ha)]
    refine ⟨s, rfl, ?_⟩
    rw [show update l (folded name) none = l by rw [← ha, update_eq_self]]
    exact h
  | some a =>
  obtain ⟨s', hdel, htree, hlookup, hkeys⟩ := hthere (h.keyFind_isSome ha)
  rw [hdel]
  have hold : ∀ n b, update l (folded name) none n = some b → n ≠ folded name ∧ l n = some b := by
    grind [update_apply]
  refine ⟨s'.compact, rfl, htree.compact, fun n b hb => h.named n b (hold n b hb).2,
    fun k' hk' hunder => ?_,
    fun n b hb e he => ?_, fun n b hb => h.salts n b (hold n b hb).2,
    fun n b hb => h.uids n b (hold n b hb).2,
    fun n n' b b' hb hb' => h.own n n' b b' (hold n b hb).2 (hold n' b' hb').2⟩
  · obtain ⟨k, hk, hpath, hstays⟩ := hkeys k' hk'
    rw [← hpath] at hunder ⊢
    rcases h.keys k hk hunder with hroot | ⟨n, hn, hsome⟩
    · exact .inl hroot
    refine .inr ⟨n, hn, ?_⟩
    rw [update_of_ne]
    · exact hsome
    · -- The key would have gone with the account.
      intro hfold
      rw [Sett.under_congr (hn.trans (folded_pathOfAccount_inj.mpr hfold)),
        Sett.under_self] at hstays
      exact absurd hstays (by decide)
  · obtain ⟨hn, hb⟩ := hold _ b hb
    obtain ⟨n', hfold, hnsep, -⟩ := h.named _ b hb
    rw [Sett.lookup_compact, Sett.lookup_congr (folded_pathOfAccount_inj.mpr hfold),
      hlookup, if_neg]
    · grind
    · rw [under_pathOfAccount hnsep, ← hfold]
      exact hn

/-! ## Runs -/

/-- There are no accounts in the Sett. -/
def Sett.NoAccounts (s : Sett) : Prop :=
  ∀ k ∈ s.keys, Sett.under accPrefix k.path = true → folded k.path = folded accPrefix

theorem Sett.NoAccounts.registered (h : s.NoAccounts) (htree : s.Tree) :
    Registered kdf s fun _ => none :=
  ⟨htree, fun _ _ ha => absurd ha (by simp), fun k hk hunder => .inl (h k hk hunder),
    fun _ _ ha => absurd ha (by simp),
    fun _ _ ha => absurd ha (by simp), fun _ _ ha => absurd ha (by simp),
    fun _ _ _ _ ha => absurd ha (by simp)⟩

/-- Every command keeps Sett and ledger in step. -/
theorem AccountOp.registered_step (op : AccountOp) (st : Sett × Ledger)
    (h : Registered kdf st.1 st.2) (hop : op.WellFormed ∧ op.Roomy st ∧ op.Harmless st) :
    Registered kdf (op.step kdf st).1 (op.step kdf st).2 ∧ op.Answered kdf st := by
  obtain ⟨hwell, hroomy, hharmless⟩ := hop
  cases op with
  | add name password m =>
    obtain ⟨hname, hpassword⟩ := hwell
    obtain ⟨hsep, hnone, hlast⟩ := hharmless
    obtain ⟨s', hadd, hreg⟩ := h.add m password hname.1 hname.2.1 hsep hnone hlast hroomy
    unfold AccountOp.step AccountOp.Answered AccountOp.enter AccountOp.moment
    simp only [accountCommand_add hname hpassword, hadd, hnone]
    exact ⟨hreg, by simp⟩
  | del name m =>
    obtain ⟨s', hdel, hreg⟩ := h.del hwell.1 hwell.2.1 hharmless
    unfold AccountOp.step AccountOp.Answered AccountOp.enter AccountOp.moment
    simp only [accountCommand_del hwell, hdel]
    exact ⟨hreg, trivial⟩

/-- Commands with names that have no separator, none of them added twice: in every state the run
reaches the Sett has the accounts that were added and not deleted, and every command is answered as
it should be. -/
theorem accounts_run (kdf : Kdf) (s : Sett) (htree : s.Tree) (hnone : s.NoAccounts)
    (ops : List AccountOp)
    (hops : Along (AccountOp.step kdf) (fun op st => op.WellFormed ∧ op.Roomy st ∧ op.Harmless st)
      ops (s, fun _ => none)) :
    Keeps kdf (after (AccountOp.step kdf) (s, fun _ => none) ops).1
      (after (AccountOp.step kdf) (s, fun _ => none) ops).2 ∧
      Along (AccountOp.step kdf) (AccountOp.Answered kdf) ops (s, fun _ => none) := by
  have hstart : Registered kdf s fun _ => none := hnone.registered htree
  refine ⟨?_, ?_⟩
  · exact (Along.invariant (I := fun st : Sett × Ledger => Registered kdf st.1 st.2)
      (fun op st h hop => (op.registered_step st h hop).1) hstart hops).keeps
  · exact Along.guarantee (I := fun st : Sett × Ledger => Registered kdf st.1 st.2)
      (fun op st h hop => (op.registered_step st h hop).1)
      (fun op st h hop => (op.registered_step st h hop).2) hstart hops

/-- A password function that keeps the password, for examples. -/
def plainKdf : Kdf where
  hash password _ := (password ++ List.replicate 32 0).take 32
  length password salt := by simp

/-- `account add a p` and `account del a` on an empty Sett. -/
theorem accounts_run_one :
    Keeps plainKdf
      (after (AccountOp.step plainKdf) ({}, fun _ => none) [.add [97] [112] ⟨5, 0, true⟩,
      .del [65] ⟨6, 0, true⟩]).1
      (after (AccountOp.step plainKdf) ({}, fun _ => none) [.add [97] [112] ⟨5, 0, true⟩,
        .del [65] ⟨6, 0, true⟩]).2 := by
  refine (accounts_run plainKdf {} Sett.tree_empty (fun k hk => absurd hk (by simp))
    [.add [97] [112] ⟨5, 0, true⟩, .del [65] ⟨6, 0, true⟩] (And.intro ?_ (And.intro ?_ trivial))).1
  · have hroom : Sett.Room {} [97] := by
      unfold Sett.Room
      decide
    refine ⟨⟨by unfold IsWord; decide, by unfold IsWord; decide⟩, hroom, by decide, rfl,
      fun n a ha => absurd ha (by simp)⟩
  · have hname : IsWord 15 ([65] : Text) := by unfold IsWord; decide
    have hsep : settSep ∉ ([65] : Text) := by decide
    exact ⟨hname, trivial, hsep⟩

/-- A second `account add a` with another password is not refused: it takes the place of the first.
And the account `a\b` is not seen when the uid of the next one is looked for. -/
theorem accounts_overwritten :
    let first :=
      (accountCommand plainKdf ⟨5, 0, true⟩ {} (AccountOp.add [97] [112] ⟨5, 0, true⟩).line).2
    let second :=
      accountCommand plainKdf ⟨6, 0, true⟩ first (AccountOp.add [97] [113] ⟨6, 0, true⟩).line
    let nested :=
      (accountCommand plainKdf ⟨5, 0, true⟩ {}
      (AccountOp.add [97, 92, 98] [112] ⟨5, 0, true⟩).line).2
    let third :=
      (accountCommand plainKdf ⟨6, 0, true⟩ nested (AccountOp.add [99] [113] ⟨6, 0, true⟩).line).2
    first.verify plainKdf [97] [112] = some 1000 ∧ second.1 = .added ∧
      second.2.verify plainKdf [97] [112] = none ∧
      second.2.verify plainKdf [97] [113] = some 1000 ∧
      third.verify plainKdf [97, 92, 98] [112] = some 1000 ∧ third.verify plainKdf [99] [113] =
      some 1000 := by
  decide +kernel

end Mellivora
