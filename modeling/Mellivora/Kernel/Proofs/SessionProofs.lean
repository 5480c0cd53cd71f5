import Mellivora.Kernel.Proofs.NamespaceProofs

/-!
# Proofs: the session test

The segments of a text say where a walk along it ends, since an object is a child of its parent
only.
-/

namespace Mellivora

open Linked List

variable {segs : List ObjName} {n : Nat} {a b text : ObjName} {c : UInt8} {w : World}
  {kids : Nat → List Nat} {obj : Nat}

/-! ## Names -/

theorem sameName_symm (h : sameName a b) : sameName b a := Eq.symm h

theorem sameName_trans {c : ObjName} (h : sameName a b) (h' : sameName b c) :
    sameName a c := Eq.trans h h'

theorem sameName_of_segMatch {seg : ObjName} {node : NsNode} (h : segMatch seg node) :
    sameName seg node.name := by
  simp only [segMatch, Bool.and_eq_true, decide_eq_true_eq] at h
  exact h.2

theorem objNsLower_of_isDigit (h : isDigit c) : objNsLower c = c := by
  rw [objNsLower, if_neg]
  simp only [isDigit, Bool.and_eq_true, decide_eq_true_eq, UInt8.le_iff_toNat_le] at h ⊢
  have h2 : c.toNat ≤ 0x39 := h.2
  rintro ⟨h1, -⟩
  have h1' : 0x41 ≤ c.toNat := h1
  omega

theorem objNsLower_cases (c : UInt8) :
    objNsLower c = c ∨ 0x61 ≤ (objNsLower c).toNat ∧ (objNsLower c).toNat ≤ 0x7A := by
  unfold objNsLower
  by_cases hupper : 0x41 ≤ c ∧ c ≤ 0x5A
  · rw [if_pos hupper, UInt8.toNat_add]
    have h1 : 0x41 ≤ c.toNat := UInt8.le_iff_toNat_le.mp hupper.1
    have h2 : c.toNat ≤ 0x5A := UInt8.le_iff_toNat_le.mp hupper.2
    have h3 : (0x20 : UInt8).toNat = 0x20 := rfl
    right
    omega
  · rw [if_neg hupper]
    exact Or.inl rfl

theorem eq_of_objNsLower_eq_digit {d : UInt8} (hd : isDigit d) (h : objNsLower c = objNsLower d) :
    c = d := by
  rw [objNsLower_of_isDigit hd] at h
  rcases objNsLower_cases c with hsame | hlower
  · rw [← hsame, h]
  · simp only [isDigit, Bool.and_eq_true, decide_eq_true_eq, UInt8.le_iff_toNat_le] at hd
    have h2 : d.toNat ≤ 0x39 := hd.2
    rw [h] at hlower
    omega

/-- Numbers are the same only if they are equal. -/
theorem eq_of_sameName_digits (ha : a.all isDigit) (h : sameName a b) : a = b := by
  induction a generalizing b with
  | nil =>
    cases b with
    | nil => rfl
    | cons c b => cases h
  | cons d a ih =>
  cases b with
  | nil => cases h
  | cons c b =>
    obtain ⟨hd, ha⟩ := by simpa using ha
    obtain ⟨hhead, htail⟩ := cons.inj h
    rw [eq_of_objNsLower_eq_digit hd hhead.symm, ih (by simpa using ha) htail]

theorem sessionNumber_congr (h : sameName a b) : sessionNumber a = sessionNumber b := by
  by_cases ha : a.all isDigit
  · rw [eq_of_sameName_digits ha h]
  by_cases hb : b.all isDigit
  · rw [eq_of_sameName_digits hb (sameName_symm h)]
  · rw [sessionNumber, sessionNumber, if_neg fun hc => ha hc.2, if_neg fun hc => hb hc.2]

/-! ## Places in the tree -/

/-- The last step of a way. -/
theorem Reaches.last {a : Nat} (h : Reaches w kids a segs obj) :
    segs = [] ∧ obj = a ∨ ∃ segs' seg dir, segs = segs' ++ [seg] ∧ Reaches w kids a segs' dir ∧
      obj ∈ kids dir ∧ segMatch seg (w.nodes obj) := by
  induction h with
  | here a => exact Or.inl ⟨rfl, rfl⟩
  | @down dir a obj seg segs hkid hname hrest ih =>
    right
    rcases ih with ⟨rfl, rfl⟩ | ⟨segs', seg', dir', rfl, hway, hkid', hname'⟩
    · exact ⟨[], seg, dir, rfl, .here dir, hkid, hname⟩
    · exact ⟨seg :: segs', seg', dir', rfl, .down hkid hname hway, hkid', hname'⟩

section Tree

variable (h : Threaded w.nodes w.live kids) (hroot : (w.nodes w.root).inNs = false)
include h

theorem child_iff {dir a : Nat} : w.Child dir a ↔ a ∈ kids dir := by
  constructor
  · rintro ⟨l, hl, ha⟩
    rwa [hl.unique (h.chain dir)] at ha
  · exact fun ha => ⟨kids dir, h.chain dir, ha⟩

include hroot

theorem root_notMem (dir : Nat) : w.root ∉ kids dir := by
  intro hmem
  rw [(h.kid dir _ hmem).2.1] at hroot
  cases hroot

theorem Reaches.of_child {dir : Nat} (hway : Reaches w kids w.root segs obj)
    (hkid : obj ∈ kids dir) :
    ∃ segs' seg, segs = segs' ++ [seg] ∧ Reaches w kids w.root segs' dir ∧
    segMatch seg (w.nodes obj) := by
  rcases hway.last with ⟨-, rfl⟩ | ⟨segs', seg, dir', rfl, hway', hkid', hname⟩
  · exact absurd hkid (root_notMem h hroot dir)
  · obtain rfl : dir' = dir := (h.eq_parent hkid').symm.trans (h.eq_parent hkid)
    exact ⟨segs', seg, rfl, hway', hname⟩

theorem Reaches.root (hway : Reaches w kids w.root segs w.root) : segs = [] := by
  rcases hway.last with ⟨rfl, -⟩ | ⟨segs', seg, dir, rfl, -, hkid, -⟩
  · rfl
  · exact absurd hkid (root_notMem h hroot dir)

/-- A way to an object of a session starts with the session. -/
theorem Reaches.of_inSession (hway : Reaches w kids w.root segs obj) (hin : w.InSession n obj) :
    ∃ first second third rest, segs = first :: second :: third :: rest ∧
      sameName nameSessions first ∧ sessionNumber second = some n := by
  obtain ⟨sessions, dir, a, hsessions, hname, hdir, hnumber, ha, hbelow⟩ := hin
  rw [child_iff h] at hsessions hdir ha
  induction hbelow generalizing segs with
  | refl =>
    obtain ⟨segs2, third, rfl, hway2, -⟩ := hway.of_child h hroot ha
    obtain ⟨segs1, second, rfl, hway1, hsecond⟩ := hway2.of_child h hroot hdir
    obtain ⟨segs0, first, rfl, hway0, hfirst⟩ := hway1.of_child h hroot hsessions
    obtain rfl := hway0.root h hroot
    refine ⟨first, second, third, [], rfl, ?_, ?_⟩
    · exact sameName_trans hname (sameName_symm (sameName_of_segMatch hfirst))
    · rw [sessionNumber_congr (sameName_of_segMatch hsecond), hnumber]
  | @tail b c _ hchild ih =>
    rw [child_iff h] at hchild
    obtain ⟨segs', seg, rfl, hway', -⟩ := hway.of_child h hroot hchild
    obtain ⟨first, second, third, rest, rfl, hfirst, hsecond⟩ := ih hway'
    exact ⟨first, second, third, rest ++ [seg], rfl, hfirst, hsecond⟩

omit hroot in
theorem Reaches.descends {a : Nat} (hway : Reaches w kids a segs obj) :
    Relation.ReflTransGen w.Child a obj := by
  induction hway with
  | here a => exact .refl
  | down hkid _ _ ih => exact .head ((child_iff h).mpr hkid) ih

/-- The session that a text leads into is the session of the object that it leads to. -/
theorem sessionNamed_iff_inSession (hway : Reaches w kids w.root (segments text) obj) :
    sessionNamed text = some n ↔ w.InSession n obj := by
  constructor
  · intro hnamed
    unfold sessionNamed at hnamed
    split at hnamed
    case h_2 => cases hnamed
    rename_i first second third rest hsegs
    split at hnamed
    case isFalse => cases hnamed
    rename_i hfirst
    rw [hsegs] at hway
    cases hway with
    | @down _ sessions _ _ _ hsessions hname1 hway1 =>
    cases hway1 with
    | @down _ dir _ _ _ hdir hname2 hway2 =>
    cases hway2 with
    | @down _ a _ _ _ ha _ hway3 =>
      refine ⟨sessions, dir, a, (child_iff h).mpr hsessions,
        sameName_trans hfirst (sameName_of_segMatch hname1), (child_iff h).mpr hdir, ?_,
        (child_iff h).mpr ha, hway3.descends h⟩
      rw [← sessionNumber_congr (sameName_of_segMatch hname2), hnamed]
  · intro hin
    obtain ⟨first, second, third, rest, hsegs, hfirst, hsecond⟩ := hway.of_inSession h hroot hin
    unfold sessionNamed
    rw [hsegs]
    simp only [if_pos hfirst, hsecond]

end Tree

/-! ## The texts of a walk -/

section Texts

variable {caller : Option Nat} {turns links : Nat} {r : Except MvStatus Nat} {last : ObjName}
  {links' : Nat}

/-- A name that may be entered is. -/
theorem nsWalkSegs_of_enters {depth cur a : Nat} {seg : ObjName}
    (h : w.Enters caller depth cur seg a) :
    nsWalkSegs w caller (seg :: segs) depth cur =
      if (w.nodes a).symlink then some (.link (w.nodes a).target)
      else nsWalkSegs w caller segs (depth + 1) a := by
  rw [nsWalkSegs, if_neg (not_lt.mpr h.short), if_neg (by have := h.room; omega),
    if_neg (by simp [h.access]),
    h.child]
  exact if_neg h.there

/-- The walk along the segments goes down the tree. -/
theorem World.Descends.nsWalkSegs_eq {depth cur : Nat} {e : WalkEnd}
    (h : w.Descends caller depth cur segs e) :
    nsWalkSegs w caller segs depth cur = some e := by
  induction h with
  | found => rfl
  | link henters hlink => rw [nsWalkSegs_of_enters henters, if_pos hlink]
  | down henters hlink _ ih =>
      rw [nsWalkSegs_of_enters henters, hlink, if_neg Bool.false_ne_true, ih]

/-- A walk that is not refused descends by its names. -/
theorem descends_of_nsWalkSegs {depth cur : Nat} {e : WalkEnd}
    (h : nsWalkSegs w caller segs depth cur = some e)
    (he : ∀ status, e ≠ .refused status) : w.Descends caller depth cur segs e := by
  induction segs generalizing depth cur with
  | nil =>
    cases h
    exact .found
  | cons seg segs ih =>
  rw [nsWalkSegs] at h
  split at h
  · cases h
    exact absurd rfl (he _)
  split at h
  · cases h
    exact absurd rfl (he _)
  split at h
  · cases h
    exact absurd rfl (he _)
  next hseg hdepth haccess =>
  obtain ⟨a, hchild, h⟩ := Option.bind_eq_some_iff.mp h
  split at h
  · cases h
    exact absurd rfl (he _)
  next hthere =>
  have henters : w.Enters caller depth cur seg a :=
    ⟨not_lt.mp hseg, by omega, by simpa using haccess, hchild, hthere⟩
  split at h
  · next hlink =>
    cases h
    exact .link henters hlink
  · next hlink => exact .down henters (by simpa using hlink) (ih h)

/-- A walk that comes to an object has gone over the symlinks that its text leads over. -/
theorem arrives_of_nsWalkFrom
    (h : nsWalkFrom w caller turns links text = some (.ok obj, last, links')) :
    ∃ n, w.Arrives caller text n last ∧ linksLeft links n := by
  induction turns generalizing links text with
  | zero => cases h
  | succ turns ih =>
  rw [nsWalkFrom] at h
  obtain ⟨e, hend, h⟩ := Option.bind_eq_some_iff.mp h
  cases e with
  | refused status => cases h
  | found a =>
    cases h
    exact ⟨0, .here (descends_of_nsWalkSegs hend (by simp)), .inl rfl⟩
  | link target =>
  dsimp only at h
  split at h
  · cases h
  split at h
  · cases h
  next hmax hroot =>
  obtain ⟨n, harrives, hleft⟩ := ih h
  refine ⟨n + 1, .link (descends_of_nsWalkSegs hend (by simp)) (not_not.mp hroot) harrives, .inr ?_⟩
  unfold linksLeft at hleft
  unfold symlinkMax at *
  omega

/-- The walk along a text that arrives, with a count that allows it, comes to an object on the last
text. -/
theorem World.Arrives.nsWalkFrom_eq {n : Nat} (h : w.Arrives caller text n last)
    (hleft : linksLeft links n)
    {text' : ObjName} (hwalk : nsWalkFrom w caller turns links text = some (r, text', links')) :
    text' = last ∧ ∃ obj, r = .ok obj := by
  induction h generalizing turns links with
  | here hdescends =>
    cases turns with
    | zero => cases hwalk
    | succ turns =>
      rw [nsWalkFrom, hdescends.nsWalkSegs_eq] at hwalk
      cases hwalk
      exact ⟨rfl, _, rfl⟩
  | @link text target n last hdescends hroot _ ih =>
    cases turns with
    | zero => cases hwalk
    | succ turns =>
      have hfew : (links + 1) % 2 ^ 32 + (n + 1) ≤ symlinkMax + 1 :=
        hleft.resolve_left (Nat.succ_ne_zero n)
      rw [nsWalkFrom, hdescends.nsWalkSegs_eq, Option.bind_eq_bind, Option.bind_some] at hwalk
      dsimp only at hwalk
      rw [if_neg (by omega), if_neg (not_not_intro hroot)] at hwalk
      refine ih ?_ hwalk
      unfold linksLeft
      unfold symlinkMax at *
      omega

end Texts

/-! ## Isolation -/

/-- The session test lets a task that is not root start where it sees the task's own session, or
none. -/
theorem sessionRefused_eq_false_iff {i : Nat} (heuid : (w.tasks i).euid ≠ 0) :
    w.sessionRefused (some i) text = false ↔ ∀ m, sessionSeen text = some m →
    m = (w.tasks i).sess := by
  have hidentity : w.identity (some i) =
      { uid := (w.tasks i).euid
        sess := (w.tasks i).sess
        integrity := integrityMedium
        system := false } :=
    if_neg heuid
  cases hseen : sessionSeen text with
  | none => simp [World.sessionRefused, hseen]
  | some m => simp [World.sessionRefused, hseen, World.hasPriv, hidentity]

/-- A task that is not root stays out of the other sessions, unless a text slips by the session
test. -/
theorem isolated_iff_not_slips (w : World) (hns : w.Namespace) (i : Nat)
    (heuid : (w.tasks i).euid ≠ 0) (path : ObjName) : w.Isolated i path ↔ ¬ w.Slips i path := by
  obtain ⟨kids, h⟩ := hns.threaded
  have hplace : ∀ {obj text links n}, w.walk (some i) path = some (.ok obj, text, links) →
      (sessionNamed text = some n ↔ w.InSession n obj) := by
    intro obj text links n hwalk
    obtain ⟨result, text', links', hsome, hway⟩ := walk_spec (some i) h hns.address hns.root.1 path
    cases hwalk.symm.trans hsome
    exact sessionNamed_iff_inSession h hns.root.2 (hway obj rfl)
  constructor
  · rintro hisolated ⟨hpassed, n, last, m, harrives, hleft, hnamed, hne⟩
    obtain ⟨r, text, links, hwalk, -⟩ := walk_spec (some i) h hns.address hns.root.1 path
    have hfrom := hwalk
    rw [World.walk, (sessionRefused_eq_false_iff heuid).mpr hpassed,
      if_neg Bool.false_ne_true] at hfrom
    obtain ⟨rfl, obj, rfl⟩ := harrives.nsWalkFrom_eq hleft hfrom
    exact hisolated obj text links hwalk ⟨m, hne, (hplace hwalk).mp hnamed⟩
  rintro hslips obj text links hwalk ⟨m, hne, hin⟩
  have hnamed := (hplace hwalk).mpr hin
  unfold World.walk at hwalk
  dsimp only at hwalk
  split at hwalk
  · cases hwalk
  next hpassed =>
  obtain ⟨n, harrives, hleft⟩ := arrives_of_nsWalkFrom hwalk
  exact hslips ⟨(sessionRefused_eq_false_iff heuid).mp (by simpa using hpassed), n, text, m,
    harrives, hleft, hnamed,
    hne⟩

/-- A root with `\Sessions\2\X` below it, and a task of session 1. -/
def sessionWorld : World where
  objs _ := {}
  nodes a :=
    if a = 1 then { child := 2 }
    else if a = 2 then { name := nameSessions, child := 3, parent := 1, inNs := true }
    else if a = 3 then { name := [0x32], child := 4, parent := 2, inNs := true }
    else if a = 4 then { name := [0x58], parent := 3, inNs := true }
    else {}
  live a := 1 ≤ a && a ≤ 4
  pool := []
  grants := []
  tasks _ := { table := { mem := fun _ => 0, pages := [] }, pid := 1, euid := 1000, sess := 1 }
  ownerLive _ := 0
  root := 1
  onwLinks := 0

theorem sessionWorld_namespace : sessionWorld.Namespace := by
  refine ⟨⟨fun d => if d = 1 then [2] else if d = 2 then [3] else if d = 3 then [4] else [], ?_⟩,
    ?_, by decide⟩
  · have hcases : ∀ d : Nat, d = 1 ∨ d = 2 ∨ d = 3 ∨ d = 4 ∨
      (d ≠ 1 ∧ d ≠ 2 ∧ d ≠ 3 ∧ d ≠ 4) := by omega
    refine ⟨fun d => ?_, fun d => ?_, rfl, fun d a ha => ?_⟩
    · rcases hcases d with rfl | rfl | rfl | rfl | ⟨h1, h2, h3, h4⟩
      · exact ⟨rfl, by decide, rfl⟩
      · exact ⟨rfl, by decide, rfl⟩
      · exact ⟨rfl, by decide, rfl⟩
      · rfl
      · simp [sessionWorld, h1, h2, h3, h4]
    · rcases hcases d with rfl | rfl | rfl | rfl | ⟨h1, h2, h3, -⟩
      iterate 4 simp
      simp [h1, h2, h3]
    · rcases hcases d with rfl | rfl | rfl | rfl | ⟨h1, h2, h3, -⟩
      · obtain rfl : a = 2 := by simpa using ha
        exact ⟨rfl, rfl, rfl⟩
      · obtain rfl : a = 3 := by simpa using ha
        exact ⟨rfl, rfl, rfl⟩
      · obtain rfl : a = 4 := by simpa using ha
        exact ⟨rfl, rfl, rfl⟩
      · simp at ha
      · simp [h1, h2, h3] at ha
  · intro a ha
    simp only [sessionWorld, Bool.and_eq_true, decide_eq_true_eq] at ha
    omega

/-- The path `\Sessions\2\X` is refused. -/
theorem isolated_iff_not_slips_plainPath :
    sessionWorld.Isolated 0 (separator :: (objStrSessions ++ [0x32, separator, 0x58])) ↔
      ¬ sessionWorld.Slips 0 (separator :: (objStrSessions ++ [0x32, separator, 0x58])) :=
  isolated_iff_not_slips sessionWorld sessionWorld_namespace 0 (by decide) _

/-- With two separators in front, the path is not seen to enter session 2. -/
theorem doubleSeparator_not_isolated :
    sessionWorld.Namespace ∧ (sessionWorld.tasks 0).euid ≠ 0 ∧
      ¬ sessionWorld.Isolated 0
      (separator :: separator :: (objStrSessions ++ [0x32, separator, 0x58])) := by
  refine ⟨sessionWorld_namespace, by decide, fun hisolated => ?_⟩
  have heval : ((sessionWorld.walk (some 0)
      (separator :: separator :: (objStrSessions ++ [0x32, separator, 0x58]))).map
        fun r => r.1.toOption) = some (some 4) := by
    decide +kernel
  obtain ⟨⟨result, text, links⟩, hwalk, hresult⟩ := Option.map_eq_some_iff.mp heval
  obtain rfl : result = .ok 4 := by
    cases result with
    | error status => cases hresult
    | ok obj => cases hresult; rfl
  refine hisolated 4 text links hwalk ⟨2, by decide, 2, 3, 4,
    ⟨[2], ⟨rfl, by decide, rfl⟩, by decide⟩, ?_,
    ⟨[3], ⟨rfl, by decide, rfl⟩, by decide⟩, ?_, ⟨[4], ⟨rfl, by decide, rfl⟩, by decide⟩, .refl⟩
  · decide
  · decide

end Mellivora
