import DiscoBsd.Ufs.Syscalls
import DiscoBsd.Lib.Steps

/-!
# Link counts

In a consistent file system the `i_nlink` of every inode is the number of directory entries that
name it, `.` and `..` included. The calls count up and down in different places; `excess` follows
the difference through each of them. What makes the counts come out right is the shape of the
tree: a directory has a `.` and a `..`, and an entry of a directory is in the one its `..` names.

`rename` does not take the `..` of a directory that it replaces off the count of the parent when
the parent stays the same. `links_counted` shows that the counts are right in every run without
that.
-/

namespace DiscoBsd.Ufs

open Lib

variable {Ino : Type} [DecidableEq Ino] [Fintype Ino] {fs fs' : Fs Ino} {root : Ino}
  {c : Caller Ino} {d dp ip i j : Ino} {n name : Name} {x : Ino → Nat}

/-! ## Entries behind each change -/

section Lookup

omit [Fintype Ino]

@[simp] theorem lookup_bump : (fs.bump ip).lookup d n = fs.lookup d n := by
  simp only [Fs.lookup, Fs.bump]

@[simp] theorem lookup_drop : (fs.drop ip).lookup d n = fs.lookup d n := by
  simp only [Fs.lookup, Fs.drop]

theorem lookup_enter :
    (fs.enter dp name ip).lookup d n = if d = dp ∧ n = name then some ip else fs.lookup d n := by
  simp only [Fs.lookup, Fs.enter]
  by_cases hd : d = dp
  · subst hd
    rw [Function.update_self]
    by_cases hn : n = name
    · subst hn
      rw [AList.lookup_insert, if_pos ⟨rfl, rfl⟩]
    · rw [AList.lookup_insert_ne hn, if_neg fun h => hn h.2]
  · rw [Function.update_of_ne hd, if_neg fun h => hd h.1]

theorem lookup_remove :
    (fs.remove dp name).lookup d n = if d = dp ∧ n = name then none else fs.lookup d n := by
  simp only [Fs.lookup, Fs.remove]
  by_cases hd : d = dp
  · subst hd
    rw [Function.update_self]
    by_cases hn : n = name
    · subst hn
      rw [AList.lookup_erase, if_pos ⟨rfl, rfl⟩]
    · rw [AList.lookup_erase_ne hn, if_neg fun h => hn h.2]
  · rw [Function.update_of_ne hd, if_neg fun h => hd h.1]

theorem lookup_itrunc :
    (fs.itrunc ip).lookup d n = if d = ip then none else fs.lookup d n := by
  simp only [Fs.lookup, Fs.itrunc]
  by_cases hd : d = ip
  · subst hd
    rw [Function.update_self, AList.lookup_empty, if_pos rfl]
  · rw [Function.update_of_ne hd, if_neg hd]

@[simp] theorem fmt_bump : (fs.bump ip).fmt = fs.fmt := by
  simp only [Fs.bump]

@[simp] theorem fmt_drop : (fs.drop ip).fmt = fs.fmt := by
  simp only [Fs.drop]

@[simp] theorem fmt_enter : (fs.enter dp name ip).fmt = fs.fmt := by
  simp only [Fs.enter]

@[simp] theorem fmt_remove : (fs.remove dp name).fmt = fs.fmt := by
  simp only [Fs.remove]

@[simp] theorem fmt_itrunc : (fs.itrunc ip).fmt = fs.fmt := by
  simp only [Fs.itrunc]

@[simp] theorem nlink_enter : (fs.enter dp name ip).nlink = fs.nlink := by
  simp only [Fs.enter]

@[simp] theorem nlink_remove : (fs.remove dp name).nlink = fs.nlink := by
  simp only [Fs.remove]

@[simp] theorem nlink_itrunc : (fs.itrunc ip).nlink = fs.nlink := by
  simp only [Fs.itrunc]

theorem nlink_bump (h : fs.nlink ip < 2 ^ 16 - 1) (i : Ino) :
    (fs.bump ip).nlink i = fs.nlink i + one ip i := by
  simp only [Fs.bump]
  by_cases hi : i = ip
  · subst hi
    rw [Function.update_self, one_self, Nat.mod_eq_of_lt (by omega)]
  · rw [Function.update_of_ne hi, one_ne (Ne.symm hi), Nat.add_zero]

theorem nlink_drop (h : 0 < fs.nlink ip) (hshort : fs.nlink ip < 2 ^ 16) (i : Ino) :
    (fs.drop ip).nlink i + one ip i = fs.nlink i := by
  simp only [Fs.drop]
  by_cases hi : i = ip
  · subst hi
    rw [Function.update_self, one_self]
    omega
  · rw [Function.update_of_ne hi, one_ne (Ne.symm hi), Nat.add_zero]

end Lookup

/-! ## Counts behind each change -/

/-- By how much the count of an inode is above the number of its entries. -/
def Fs.excess (fs : Fs Ino) (j : Ino) : Int := fs.nlink j - indegree fs.dents j

theorem excess_bump (h : fs.nlink ip < 2 ^ 16 - 1) (j : Ino) :
    (fs.bump ip).excess j = fs.excess j + one ip j := by
  have hcount := nlink_bump h j
  show ((fs.bump ip).nlink j : Int) - indegree fs.dents j = fs.nlink j - indegree fs.dents j + _
  omega

theorem excess_drop (h : 0 < fs.nlink ip) (hshort : fs.nlink ip < 2 ^ 16) (j : Ino) :
    (fs.drop ip).excess j = fs.excess j - one ip j := by
  have hcount := nlink_drop h hshort j
  show ((fs.drop ip).nlink j : Int) - indegree fs.dents j = fs.nlink j - indegree fs.dents j - _
  omega

theorem excess_enter (fs : Fs Ino) (dp : Ino) (name : Name) (ip j : Ino) :
    (fs.enter dp name ip).excess j = fs.excess j + slot (fs.dents dp) name j - one ip j := by
  have hcount := indegree_insert fs.dents dp name ip j
  simp only [Fs.excess, Fs.enter]
  omega

theorem excess_remove (fs : Fs Ino) (dp : Ino) (name : Name) (j : Ino) :
    (fs.remove dp name).excess j = fs.excess j + slot (fs.dents dp) name j := by
  have hcount := indegree_erase fs.dents dp name j
  simp only [Fs.excess, Fs.remove]
  omega

theorem excess_itrunc (fs : Fs Ino) (ip j : Ino) :
    (fs.itrunc ip).excess j = fs.excess j + edgesTo (fs.dents ip) j := by
  have hcount := indegree_clear fs.dents ip j
  simp only [Fs.excess, Fs.itrunc]
  omega

/-! ## Consistent file systems -/

/-- A directory in use: it names itself `.`, and its `..` is a directory. -/
def Proper (fs : Fs Ino) (d : Ino) : Prop :=
  fs.fmt d = .dir ∧ fs.lookup d dot = some d ∧ ∃ up, fs.lookup d dotdot = some up ∧ fs.fmt up = .dir

/-- The directories are a tree. -/
structure Shape (root : Ino) (fs : Fs Ino) : Prop where
  proper : ∀ d n i, fs.lookup d n = some i → Proper fs d
  alive : ∀ d, fs.fmt d = .dir → fs.nlink d ≠ 0 → ∃ n i, fs.lookup d n = some i
  free : ∀ i, fs.fmt i = .free → fs.nlink i = 0
  tree : ∀ d n i, fs.lookup d n = some i → n ≠ dot → n ≠ dotdot → fs.fmt i = .dir →
    fs.lookup i dotdot = some d
  unique : ∀ d n n' i, fs.lookup d n = some i → fs.lookup d n' = some i → n ≠ dot → n ≠ dotdot →
    n' ≠ dot → n' ≠ dotdot → fs.fmt i = .dir → n = n'
  noLoop : ∀ d e, d ≠ e → fs.lookup d dotdot = some e → fs.lookup e dotdot ≠ some d
  top : fs.lookup root dotdot = some root

/-- The counts are right but for `x` links too many, and the directories are a tree. -/
structure Linked (x : Ino → Nat) (root : Ino) (fs : Fs Ino) : Prop where
  counted : ∀ i, fs.nlink i = indegree fs.dents i + x i
  short : ∀ i, fs.nlink i < 2 ^ 16
  shape : Shape root fs

/-- The counts are right, and the directories are a tree. -/
abbrev Consistent (root : Ino) (fs : Fs Ino) : Prop := Linked (fun _ => 0) root fs

theorem Linked.excess (h : Linked x root fs) (j : Ino) : fs.excess j = x j := by
  have hj := h.counted j
  rw [Fs.excess]
  omega

theorem counted_of_excess (h : ∀ j, fs.excess j = x j) (i : Ino) :
    fs.nlink i = indegree fs.dents i + x i := by
  have hi := h i
  rw [Fs.excess] at hi
  omega

theorem Linked.pos (h : Linked x root fs) (hlookup : fs.lookup d n = some i) :
    0 < fs.nlink i := by
  have hpos : 0 < indegree fs.dents i := indegree_pos hlookup
  rw [h.counted i]
  omega

theorem Linked.used (h : Linked x root fs) (hpos : 0 < fs.nlink i) :
    fs.fmt i ≠ .free ∧ (fs.fmt i = .dir → 0 < fs.nlink i) := by
  refine ⟨fun hfree => ?_, fun _ => hpos⟩
  rw [h.shape.free i hfree] at hpos
  omega

theorem Linked.proper (h : Linked x root fs) (hdir : fs.fmt d = .dir) (hnlink : fs.nlink d ≠ 0) :
    Proper fs d := by
  obtain ⟨n, i, hlookup⟩ := h.shape.alive d hdir hnlink
  exact h.shape.proper d n i hlookup

omit [DecidableEq Ino] [Fintype Ino] in
theorem Shape.dots_dir (h : Shape root fs) (hlookup : fs.lookup d n = some i)
    (hn : n = dot ∨ n = dotdot) : fs.fmt i = .dir := by
  obtain ⟨hdir, hdot, up, hup, hupdir⟩ := h.proper d n i hlookup
  obtain rfl | rfl := hn
  · rw [hdot] at hlookup
    exact Option.some.inj hlookup ▸ hdir
  · rw [hup] at hlookup
    exact Option.some.inj hlookup ▸ hupdir

omit [DecidableEq Ino] [Fintype Ino] in
/-- A name that a directory in use does not have is neither `.` nor `..`. -/
theorem Proper.new_name (h : Proper fs d) (hnone : fs.lookup d name = none) :
    name ≠ dot ∧ name ≠ dotdot := by
  obtain ⟨-, hdot, up, hup, -⟩ := h
  constructor
  · rintro rfl
    rw [hdot] at hnone
    cases hnone
  · rintro rfl
    rw [hup] at hnone
    cases hnone

omit [DecidableEq Ino] [Fintype Ino] in
theorem Proper.congr (h : Proper fs d) (hfmt : fs'.fmt = fs.fmt)
    (hdot : fs'.lookup d dot = fs.lookup d dot)
    (hdotdot : fs'.lookup d dotdot = fs.lookup d dotdot) : Proper fs' d := by
  simpa only [Proper, hfmt, hdot, hdotdot] using h

/-- Only `.` and `..` lead to the inode. -/
def Unlinked (fs : Fs Ino) (ip : Ino) : Prop :=
  ∀ d n, fs.lookup d n = some ip → n = dot ∨ n = dotdot

omit [DecidableEq Ino] [Fintype Ino] in
/-- The shape is kept when `.` and `..` stay and at most one entry is new, in the right directory. -/
theorem Shape.ordinary (dp : Ino) (name : Name) (ip : Ino) (h : Shape root fs) (hfmt : fs'.fmt = fs.fmt)
    (hdot : ∀ d, fs'.lookup d dot = fs.lookup d dot)
    (hdotdot : ∀ d, fs'.lookup d dotdot = fs.lookup d dotdot)
    (hnew : ∀ d n i, fs'.lookup d n = some i → n ≠ dot → n ≠ dotdot → fs.lookup d n = some i ∨
      ((d = dp ∧ n = name ∧ i = ip) ∧ Proper fs dp ∧
        (fs.fmt ip = .dir → fs.lookup ip dotdot = some dp ∧ Unlinked fs ip)))
    (halive : ∀ d, fs.fmt d = .dir → fs'.nlink d ≠ 0 → Proper fs d)
    (hfree : ∀ i, fs.fmt i = .free → fs'.nlink i = 0) : Shape root fs' := by
  have hkeep (d : Ino) (hd : Proper fs d) : Proper fs' d := hd.congr hfmt (hdot d) (hdotdot d)
  refine ⟨fun d n i hlookup => ?_, fun d hdir hnlink => ?_, fun i hi => ?_,
    fun d n i hlookup hn hn' hi => ?_, fun d n n' i hlookup hlookup' hn hn' hm hm' hi => ?_,
    fun d e hne hd => ?_, ?_⟩
  · by_cases hn : n = dot
    · rw [hn, hdot] at hlookup
      exact hkeep d (h.proper _ _ _ hlookup)
    by_cases hn' : n = dotdot
    · rw [hn', hdotdot] at hlookup
      exact hkeep d (h.proper _ _ _ hlookup)
    obtain hold | ⟨⟨rfl, -⟩, hd, -⟩ := hnew d n i hlookup hn hn'
    · exact hkeep d (h.proper _ _ _ hold)
    · exact hkeep d hd
  · rw [hfmt] at hdir
    obtain ⟨-, hself, -⟩ := hkeep d (halive d hdir hnlink)
    exact ⟨dot, d, hself⟩
  · rw [hfmt] at hi
    exact hfree i hi
  · rw [hfmt] at hi
    rw [hdotdot]
    obtain hold | ⟨⟨rfl, -, rfl⟩, -, hup⟩ := hnew d n i hlookup hn hn'
    · exact h.tree d n i hold hn hn' hi
    · exact (hup hi).1
  · rw [hfmt] at hi
    obtain hold | ⟨⟨-, rfl, rfl⟩, -, hup⟩ := hnew d n i hlookup hn hn' <;>
      obtain hold' | ⟨⟨-, hname, heq⟩, -, hup'⟩ := hnew d n' i hlookup' hm hm'
    · exact h.unique d n n' i hold hold' hn hn' hm hm' hi
    · rw [heq] at hold hi
      exact ((hup' hi).2 d n hold).elim (fun heq => absurd heq hn) fun heq => absurd heq hn'
    · exact ((hup hi).2 d n' hold').elim (fun heq => absurd heq hm) fun heq => absurd heq hm'
    · exact hname.symm
  · rw [hdotdot] at hd ⊢
    exact h.noLoop d e hne hd
  · rw [hdotdot]
    exact h.top

omit [Fintype Ino] in
theorem short_bump (h : ∀ i, fs.nlink i < 2 ^ 16) (ip i : Ino) : (fs.bump ip).nlink i < 2 ^ 16 := by
  simp only [Fs.bump]
  by_cases hi : i = ip
  · subst hi
    rw [Function.update_self]
    omega
  · rw [Function.update_of_ne hi]
    exact h i

omit [Fintype Ino] in
theorem short_drop (h : ∀ i, fs.nlink i < 2 ^ 16) (ip i : Ino) : (fs.drop ip).nlink i < 2 ^ 16 := by
  simp only [Fs.drop]
  by_cases hi : i = ip
  · subst hi
    rw [Function.update_self]
    omega
  · rw [Function.update_of_ne hi]
    exact h i

/-! ## One entry more or less -/

/-- An inode gets a name; a directory gets it in the directory of its `..`. -/
theorem Linked.enter (h : Linked x root fs)
    (hused : fs.fmt ip ≠ .free ∧ (fs.fmt ip = .dir → 0 < fs.nlink ip))
    (hroom : fs.nlink ip < 2 ^ 16 - 1)
    (hup : fs.fmt ip = .dir → fs.lookup ip dotdot = some dp ∧ Unlinked fs ip) (hdp : Proper fs dp) (hnew : fs.lookup dp name = none) :
    Linked x root ((fs.bump ip).enter dp name ip) := by
  obtain ⟨hdot, hdotdot⟩ := hdp.new_name hnew
  have hlook (d : Ino) (n : Name) : ((fs.bump ip).enter dp name ip).lookup d n =
      if d = dp ∧ n = name then some ip else fs.lookup d n := lookup_enter
  have hcount := nlink_bump hroom
  have hslot (j : Ino) : slot ((fs.bump ip).dents dp) name j = 0 := slot_of_none hnew j
  refine ⟨counted_of_excess fun j => ?_, short_bump h.short ip, ?_⟩
  · rw [excess_enter, excess_bump hroom, h.excess, hslot]
    omega
  · refine h.shape.ordinary dp name ip rfl (fun d => ?_) (fun d => ?_)
      (fun d n i hlookup _ _ => ?_)
      (fun d hd hnlink => ?_) fun i hi => ?_
    · rw [hlook, if_neg fun hand => hdot hand.2.symm]
    · rw [hlook, if_neg fun hand => hdotdot hand.2.symm]
    · rw [hlook] at hlookup
      split at hlookup
      · rename_i hand
        cases hlookup
        exact .inr ⟨⟨hand.1, hand.2, rfl⟩, hdp, hup⟩
      · exact .inl hlookup
    · refine h.proper hd fun hzero => hnlink ?_
      have hne : ip ≠ d := fun heq => by
        have hpos := hused.2 (heq ▸ hd)
        rw [heq] at hpos
        omega
      rw [nlink_enter, hcount, one_ne hne, hzero]
    · have hzero := h.shape.free i hi
      have hne : ip ≠ i := fun heq => hused.1 (heq ▸ hi)
      rw [nlink_enter, hcount, one_ne hne, hzero]

/-- An inode loses a name. -/
theorem Linked.remove (h : Linked x root fs) (hlookup : fs.lookup dp name = some ip)
    (hdot : name ≠ dot) (hdotdot : name ≠ dotdot) :
    Linked x root ((fs.remove dp name).drop ip) := by
  have hpos := h.pos hlookup
  have hpos' : 0 < (fs.remove dp name).nlink ip := hpos
  have hcount := nlink_drop hpos' (h.short ip)
  have hlook (d : Ino) (n : Name) : ((fs.remove dp name).drop ip).lookup d n =
      if d = dp ∧ n = name then none else fs.lookup d n := lookup_remove
  refine ⟨counted_of_excess fun j => ?_, short_drop h.short ip, ?_⟩
  · rw [excess_drop hpos' (h.short ip), excess_remove, h.excess, slot_of_some hlookup]
    omega
  · refine h.shape.ordinary dp name ip rfl (fun d => ?_) (fun d => ?_) (fun d n i hl _ _ => ?_)
      (fun d hd hnlink => ?_) fun i hi => ?_
    · rw [hlook, if_neg fun hand => hdot hand.2.symm]
    · rw [hlook, if_neg fun hand => hdotdot hand.2.symm]
    · rw [hlook] at hl
      split at hl
      · cases hl
      · exact .inl hl
    · have hd' := hcount d
      rw [nlink_remove] at hd'
      exact h.proper hd (by omega)
    · have hi' := hcount i
      rw [nlink_remove, h.shape.free i hi] at hi'
      omega

/-- What a consistent file system is does not depend on the order of entries. -/
theorem Linked.congr (h : Linked x root fs) (hfmt : fs'.fmt = fs.fmt)
    (hnlink : ∀ i, fs'.nlink i = fs.nlink i) (hlookup : ∀ d n, fs'.lookup d n = fs.lookup d n) :
    Linked x root fs' := by
  refine ⟨fun i => ?_, fun i => ?_, ?_⟩
  · rw [hnlink, h.counted, indegree_congr fun d n => hlookup d n]
  · rw [hnlink]
    exact h.short i
  · refine h.shape.ordinary root dot root hfmt (fun d => hlookup d dot) (fun d => hlookup d dotdot)
      (fun d n i hl _ _ => .inl (by rwa [hlookup] at hl)) (fun d hd hn => ?_) fun i hi => ?_
    · rw [hnlink] at hn
      exact h.proper hd hn
    · rw [hnlink]
      exact h.shape.free i hi

/-! ## `mkdir` and `rmdir` -/

theorem Linked.unnamed (h : Linked x root fs) (hzero : fs.nlink i = 0) (d : Ino) (n : Name) :
    fs.lookup d n ≠ some i := by
  intro hlookup
  have hpos := h.pos hlookup
  omega

omit [Fintype Ino] in
theorem edgesTo_virgin (new dp j : Ino) :
    edgesTo ((AList.singleton dotdot dp).insert dot new : Edges Name Ino) j =
      one new j + one dp j := by
  have hone := edgesTo_insert (∅ : Edges Name Ino) dotdot dp j
  have htwo := edgesTo_insert (AList.singleton dotdot dp : Edges Name Ino) dot new j
  rw [AList.insert_empty, slot_of_none (AList.lookup_empty _), edgesTo_empty] at hone
  rw [slot_of_none (by rfl)] at htwo
  omega

/-- A new directory with its two entries, before it has a name. -/
theorem Linked.virgin {new : Ino} (h : Linked x root fs) (hdp : Proper fs dp)
    (hroom : fs.nlink dp < 2 ^ 16 - 1) (hfree : fs.fmt new = .free) :
    Linked x root (((fs.virgin new dp).bump dp).drop new) ∧
      (∀ d n, (((fs.virgin new dp).bump dp).drop new).lookup d n =
        if d = new then if n = dot then some new else if n = dotdot then some dp else none
        else fs.lookup d n) ∧
      (∀ i, (((fs.virgin new dp).bump dp).drop new).nlink i = fs.nlink i + one new i + one dp i) ∧
      (∀ i, ((fs.virgin new dp).bump dp).nlink i =
        (((fs.virgin new dp).bump dp).drop new).nlink i + one new i) ∧ new ≠ dp := by
  have hzero := h.shape.free new hfree
  have hunnamed := h.unnamed hzero
  have hempty (n : Name) : fs.lookup new n = none := by
    cases hl : fs.lookup new n with
    | none => rfl
    | some i =>
      have hdir := (h.shape.proper _ _ _ hl).1
      rw [hfree] at hdir
      cases hdir
  have hne : new ≠ dp := fun heq => by
    have hdir := hdp.1
    rw [← heq, hfree] at hdir
    cases hdir
  have hlook (d : Ino) (n : Name) : (((fs.virgin new dp).bump dp).drop new).lookup d n =
      if d = new then if n = dot then some new else if n = dotdot then some dp else none
      else fs.lookup d n := by
    show (Function.update fs.dents new _ d).lookup n = _
    by_cases hd : d = new
    · rw [hd, Function.update_self, if_pos rfl]
      by_cases hn : n = dot
      · rw [hn, AList.lookup_insert, if_pos rfl]
      · rw [AList.lookup_insert_ne hn, if_neg hn]
        by_cases hn' : n = dotdot
        · rw [hn', if_pos rfl]
          rfl
        · rw [if_neg hn', AList.lookup_eq_none, AList.mem_keys, AList.keys_singleton]
          simpa using hn'
    · rw [Function.update_of_ne hd, if_neg hd]
      rfl
  have hvirgin (i : Ino) : (fs.virgin new dp).nlink i = fs.nlink i + 2 * one new i := by
    show Function.update fs.nlink new 2 i = _
    by_cases hi : i = new
    · rw [hi, Function.update_self, one_self, hzero]
    · rw [Function.update_of_ne hi, one_ne (Ne.symm hi), Nat.mul_zero, Nat.add_zero]
  have hroom' : (fs.virgin new dp).nlink dp < 2 ^ 16 - 1 := by
    rw [hvirgin, one_ne hne]
    exact hroom
  have hbump := nlink_bump hroom'
  have htwo : ((fs.virgin new dp).bump dp).nlink new = 2 := by
    rw [hbump, hvirgin, hzero, one_self, one_ne (Ne.symm hne)]
  have hdrop := nlink_drop (show 0 < ((fs.virgin new dp).bump dp).nlink new by rw [htwo]; omega)
    (by rw [htwo]; omega)
  have hcount (i : Ino) : (((fs.virgin new dp).bump dp).drop new).nlink i =
      fs.nlink i + one new i + one dp i := by
    have hd := hdrop i
    rw [hbump, hvirgin] at hd
    omega
  have hfmt (i : Ino) (hi : i ≠ new) : (((fs.virgin new dp).bump dp).drop new).fmt i = fs.fmt i :=
    Function.update_of_ne hi _ _
  have hfmt' : (((fs.virgin new dp).bump dp).drop new).fmt new = .dir := Function.update_self _ _ _
  have hold (d : Ino) (hd : d ≠ new) (n : Name) :
      (((fs.virgin new dp).bump dp).drop new).lookup d n = fs.lookup d n := by
    rw [hlook, if_neg hd]
  have hkeep (d : Ino) (hproper : Proper fs d) : Proper (((fs.virgin new dp).bump dp).drop new) d := by
    obtain ⟨hdir, hself, up, hup, hupdir⟩ := hproper
    have hd : d ≠ new := fun heq => by
      rw [heq, hempty] at hself
      cases hself
    refine ⟨(hfmt d hd).trans hdir, (hold d hd dot).trans hself, up, (hold d hd dotdot).trans hup, ?_⟩
    rw [hfmt up fun heq => hunnamed d dotdot (heq ▸ hup)]
    exact hupdir
  -- an entry of the new file system that is not one of the new directory is an old one
  have hback (d : Ino) (n : Name) (i : Ino) (hn : n ≠ dot) (hn' : n ≠ dotdot)
      (hl : (((fs.virgin new dp).bump dp).drop new).lookup d n = some i) :
      fs.lookup d n = some i ∧ i ≠ new := by
    rw [hlook] at hl
    split at hl
    · cases hl
    · exact ⟨hl, fun heq => hunnamed d n (heq ▸ hl)⟩
  refine ⟨⟨counted_of_excess fun j => ?_, short_drop (short_bump ?_ dp) new, ?_⟩, hlook, hcount,
    fun i => (hdrop i).symm, hne⟩
  · have hedges := indegree_update fs.dents new ((AList.singleton dotdot dp).insert dot new) j
    rw [edgesTo_virgin, edgesTo_eq_zero hempty] at hedges
    have hold := h.counted j
    show ((((fs.virgin new dp).bump dp).drop new).nlink j : Int) -
      indegree (Function.update fs.dents new ((AList.singleton dotdot dp).insert dot new)) j = x j
    have hj := hcount j
    omega
  · intro i
    rw [hvirgin]
    by_cases hi : i = new
    · rw [hi, hzero, one_self]
      omega
    · rw [one_ne (Ne.symm hi)]
      exact h.short i
  · refine ⟨fun d n i hl => ?_, fun d hd hn => ?_, fun i hi => ?_, fun d n i hl hn hn' hi => ?_,
      fun d n n' i hl hl' hn hn' hm hm' hi => ?_, fun d e hde hd => ?_, ?_⟩
    · by_cases hd : d = new
      · subst hd
        refine ⟨hfmt', ?_, dp, ?_, (hfmt dp (Ne.symm hne)).trans hdp.1⟩
        · rw [hlook, if_pos rfl, if_pos rfl]
        · rw [hlook, if_pos rfl, if_neg (by decide), if_pos rfl]
      · rw [hold d hd] at hl
        exact hkeep d (h.shape.proper _ _ _ hl)
    · by_cases hd' : d = new
      · subst hd'
        exact ⟨dot, d, by rw [hlook, if_pos rfl, if_pos rfl]⟩
      · rw [hfmt d hd'] at hd
        have hproper : Proper fs d := by
          by_cases hdp' : dp = d
          · exact hdp' ▸ hdp
          · rw [hcount, one_ne (Ne.symm hd'), one_ne hdp'] at hn
            exact h.proper hd hn
        exact ⟨dot, d, (hkeep d hproper).2.1⟩
    · by_cases hi' : i = new
      · rw [hi', hfmt'] at hi
        cases hi
      · rw [hfmt i hi'] at hi
        have hdp' : dp ≠ i := fun heq => by
          have hdir := hdp.1
          rw [heq, hi] at hdir
          cases hdir
        rw [hcount, h.shape.free i hi, one_ne (Ne.symm hi'), one_ne hdp']
    · obtain ⟨hl, hi'⟩ := hback d n i hn hn' hl
      rw [hfmt i hi'] at hi
      rw [hold i hi']
      exact h.shape.tree d n i hl hn hn' hi
    · obtain ⟨hl, hi'⟩ := hback d n i hn hn' hl
      obtain ⟨hl', -⟩ := hback d n' i hm hm' hl'
      rw [hfmt i hi'] at hi
      exact h.shape.unique d n n' i hl hl' hn hn' hm hm' hi
    · by_cases hd' : d = new
      · rw [hd', hlook, if_pos rfl, if_neg (by decide), if_pos rfl] at hd
        cases hd
        rw [hold dp (Ne.symm hne), hd']
        exact hunnamed dp dotdot
      · rw [hold d hd'] at hd
        rw [hold e fun heq => hunnamed d dotdot (heq ▸ hd)]
        exact h.shape.noLoop d e hde hd
    · rw [hold root fun heq => by
        have htop := h.shape.top
        rw [heq, hempty] at htop
        cases htop]
      exact h.shape.top

/-- A new directory is entered in its parent. -/
theorem Linked.mkdir {new : Ino} (h : Linked x root fs) (hdp : Proper fs dp)
    (hnew : fs.lookup dp name = none) (hroom : fs.nlink dp < 2 ^ 16 - 1) (hfree : fs.fmt new = .free) :
    Linked x root (((fs.virgin new dp).bump dp).enter dp name new) := by
  obtain ⟨hvirgin, hlook, hcount, hagain, hne⟩ := h.virgin hdp hroom hfree
  have hunnamed := h.unnamed (h.shape.free new hfree)
  have hone : (((fs.virgin new dp).bump dp).drop new).nlink new = 1 := by
    rw [hcount, h.shape.free new hfree, one_self, one_ne (Ne.symm hne)]
  have hpos' : 0 < (((fs.virgin new dp).bump dp).drop new).nlink new := by
    rw [hone]
    exact Nat.one_pos
  have hroom' : (((fs.virgin new dp).bump dp).drop new).nlink new < 2 ^ 16 - 1 := by
    rw [hone]
    norm_num
  have hdp' : Proper (((fs.virgin new dp).bump dp).drop new) dp := by
    obtain ⟨-, hself, -⟩ := hdp
    exact hvirgin.shape.proper dp dot dp (by rw [hlook, if_neg (Ne.symm hne), hself])
  have hup : (((fs.virgin new dp).bump dp).drop new).lookup new dotdot = some dp := by
    rw [hlook, if_pos rfl, if_neg (by decide), if_pos rfl]
  have hunlinked : Unlinked (((fs.virgin new dp).bump dp).drop new) new := by
    intro d n hl
    rw [hlook] at hl
    split at hl
    · by_cases hn : n = dot
      · exact .inl hn
      by_cases hn' : n = dotdot
      · exact .inr hn'
      · simp [hn, hn'] at hl
    · exact absurd hl (hunnamed d n)
  have hnew' : (((fs.virgin new dp).bump dp).drop new).lookup dp name = none := by
    rw [hlook, if_neg (Ne.symm hne), hnew]
  refine (hvirgin.enter (hvirgin.used hpos') hroom' (fun _ => ⟨hup, hunlinked⟩) hdp' hnew').congr ?_
    (fun i => ?_) fun d n => ?_
  · simp only [fmt_enter, fmt_bump, fmt_drop]
  · rw [nlink_enter, nlink_enter, hagain, nlink_bump hroom']
  · simp only [lookup_enter, lookup_bump, lookup_drop]

omit [Fintype Ino] in
theorem empty_entries (hempty : fs.dirempty d dp = true) (hlookup : fs.lookup d n = some i) :
    n = dot ∨ (n = dotdot ∧ i = dp) := by
  have hmem := AList.mem_lookup_iff.mp (Option.mem_def.mpr hlookup)
  have hall := List.all_eq_true.mp hempty _ hmem
  simpa using hall

omit [Fintype Ino] in
/-- All that an empty directory has are its own two entries. -/
theorem edgesTo_dirempty {up : Ino} (hempty : fs.dirempty ip dp = true)
    (hdot : fs.lookup ip dot = some ip) (hdotdot : fs.lookup ip dotdot = some up) (j : Ino) :
    up = dp ∧ edgesTo (fs.dents ip) j = one ip j + one dp j := by
  have hall : ∀ n i, fs.lookup ip n = some i → n = dot ∨ (n = dotdot ∧ i = dp) :=
    fun _ _ hl => empty_entries hempty hl
  have hup : up = dp := by
    obtain hname | ⟨-, hup⟩ := hall dotdot up hdotdot
    · exact absurd hname (by decide)
    · exact hup
  refine ⟨hup, ?_⟩
  have hfirst := edgesTo_erase (fs.dents ip) dot j
  have hsecond := edgesTo_erase ((fs.dents ip).erase dot) dotdot j
  have hstill : ((fs.dents ip).erase dot).lookup dotdot = some up := by
    rw [AList.lookup_erase_ne (by decide)]
    exact hdotdot
  have hrest : edgesTo (((fs.dents ip).erase dot).erase dotdot) j = 0 := by
    refine edgesTo_eq_zero (fun n => ?_) j
    by_cases hn' : n = dotdot
    · rw [hn', AList.lookup_erase]
    rw [AList.lookup_erase_ne hn']
    by_cases hn : n = dot
    · rw [hn, AList.lookup_erase]
    rw [AList.lookup_erase_ne hn]
    cases hl : (fs.dents ip).lookup n with
    | none => rfl
    | some i => exact (hall n i hl).elim (fun heq => absurd heq hn) fun heq => absurd heq.1 hn'
  rw [slot_of_some hdot] at hfirst
  rw [slot_of_some hstill, hup] at hsecond
  omega

/-- An empty directory is removed from its parent. -/
theorem Linked.rmdir (h : Linked x root fs) (hlookup : fs.lookup dp name = some ip)
    (hne : dp ≠ ip) (hdir : fs.fmt ip = .dir) (htwo : fs.nlink ip = 2)
    (hempty : fs.dirempty ip dp = true) :
    Linked x root (((((fs.remove dp name).drop dp).drop ip).drop ip).itrunc ip) ∧
      (∀ d n, (((((fs.remove dp name).drop dp).drop ip).drop ip).itrunc ip).lookup d n =
        if d = ip then none else if d = dp ∧ n = name then none else fs.lookup d n) ∧
      (∀ i, (((((fs.remove dp name).drop dp).drop ip).drop ip).itrunc ip).nlink i +
        (2 * one ip i + one dp i) = fs.nlink i) ∧ name ≠ dot ∧ name ≠ dotdot := by
  obtain ⟨-, hself, up, hup, -⟩ := h.proper hdir (by omega)
  obtain ⟨-, hdpself, -⟩ := h.shape.proper _ _ _ hlookup
  obtain ⟨rfl, -⟩ := edgesTo_dirempty hempty hself hup ip
  have hedges (j : Ino) := (edgesTo_dirempty hempty hself hup j).2
  have hdot : name ≠ dot := by
    rintro rfl
    rw [hdpself] at hlookup
    exact hne (Option.some.inj hlookup)
  have hdotdot : name ≠ dotdot := by
    rintro rfl
    exact h.shape.noLoop up ip hne hlookup hup
  -- the counts, one after the other
  have hdppos : 0 < (fs.remove up name).nlink up := h.pos hdpself
  have hdrop1 := nlink_drop hdppos (h.short up)
  have hip1 : ((fs.remove up name).drop up).nlink ip = 2 := by
    have hip := hdrop1 ip
    rw [one_ne hne, nlink_remove] at hip
    omega
  have hdrop2 := nlink_drop (by omega : 0 < ((fs.remove up name).drop up).nlink ip) (by omega)
  have hip2 : (((fs.remove up name).drop up).drop ip).nlink ip = 1 := by
    have hip := hdrop2 ip
    rw [one_self] at hip
    omega
  have hdrop3 := nlink_drop (by omega : 0 < (((fs.remove up name).drop up).drop ip).nlink ip)
    (by omega)
  have hcount (i : Ino) : (((((fs.remove up name).drop up).drop ip).drop ip).itrunc ip).nlink i +
      (2 * one ip i + one up i) = fs.nlink i := by
    have h1 := hdrop1 i
    have h2 := hdrop2 i
    have h3 := hdrop3 i
    rw [nlink_remove] at h1
    rw [nlink_itrunc]
    omega
  have hlook (d : Ino) (n : Name) :
      (((((fs.remove up name).drop up).drop ip).drop ip).itrunc ip).lookup d n =
        if d = ip then none else if d = up ∧ n = name then none else fs.lookup d n := by
    rw [lookup_itrunc, lookup_drop, lookup_drop, lookup_drop, lookup_remove]
  have hshort0 (i : Ino) : (fs.remove up name).nlink i < 2 ^ 16 := h.short i
  have hshort := short_drop (short_drop (short_drop hshort0 up) ip) ip
  have hexcess (j : Ino) :
      (((((fs.remove up name).drop up).drop ip).drop ip).itrunc ip).excess j = x j := by
    have hdents : ((((fs.remove up name).drop up).drop ip).drop ip).dents ip = fs.dents ip :=
      Function.update_of_ne (Ne.symm hne) _ _
    rw [excess_itrunc, excess_drop (by omega) (by omega), excess_drop (by omega) (by omega),
      excess_drop hdppos (h.short up), excess_remove, h.excess, hdents, hedges,
      slot_of_some hlookup]
    omega
  have hcounted := counted_of_excess hexcess
  have hunnamed (d : Ino) (n : Name) :
      (((((fs.remove up name).drop up).drop ip).drop ip).itrunc ip).lookup d n ≠ some ip := by
    intro hl
    have hpos := indegree_pos hl
    have hcounted := hcounted ip
    have hip := hcount ip
    rw [one_self, one_ne hne] at hip
    omega
  have hsub (d : Ino) (n : Name) (i : Ino)
      (hl : (((((fs.remove up name).drop up).drop ip).drop ip).itrunc ip).lookup d n = some i) :
      fs.lookup d n = some i ∧ d ≠ ip := by
    rw [hlook] at hl
    split at hl
    · cases hl
    · split at hl
      · cases hl
      · exact ⟨hl, ‹_›⟩
  have hdots (d : Ino) (hd : d ≠ ip) (n : Name) (hn : n = dot ∨ n = dotdot) :
      (((((fs.remove up name).drop up).drop ip).drop ip).itrunc ip).lookup d n = fs.lookup d n := by
    rw [hlook, if_neg hd, if_neg]
    rintro ⟨-, rfl⟩
    exact hn.elim hdot hdotdot
  have hkeep (d : Ino) (hd : d ≠ ip) (hproper : Proper fs d) :
      Proper (((((fs.remove up name).drop up).drop ip).drop ip).itrunc ip) d :=
    hproper.congr rfl (hdots d hd dot (.inl rfl)) (hdots d hd dotdot (.inr rfl))
  refine ⟨⟨hcounted, hshort, ?_⟩, hlook, hcount, hdot, hdotdot⟩
  refine ⟨fun d n i hl => ?_, fun d hd hn => ?_, fun i hi => ?_, fun d n i hl hn hn' hi => ?_,
    fun d n n' i hl hl' => ?_, fun d e hde hd he => ?_, ?_⟩
  · obtain ⟨hl, hd⟩ := hsub d n i hl
    exact hkeep d hd (h.shape.proper _ _ _ hl)
  · have hcd := hcount d
    have hd' : d ≠ ip := by
      rintro rfl
      rw [one_self, one_ne hne] at hcd
      omega
    obtain ⟨-, hself, -⟩ := hkeep d hd' (h.proper hd (by omega))
    exact ⟨dot, d, hself⟩
  · have hci := hcount i
    rw [h.shape.free i hi] at hci
    omega
  · obtain ⟨hl', -⟩ := hsub d n i hl
    have hi' : i ≠ ip := fun heq => hunnamed d n (heq ▸ hl)
    rw [hdots i hi' dotdot (.inr rfl)]
    exact h.shape.tree d n i hl' hn hn' hi
  · exact h.shape.unique d n n' i (hsub d n i hl).1 (hsub d n' i hl').1
  · exact h.shape.noLoop d e hde (hsub d dotdot e hd).1 (hsub e dotdot d he).1
  · have htop := h.shape.top
    rw [hdots root _ dotdot (.inr rfl)]
    · exact htop
    · rintro rfl
      rw [htop] at hup
      exact hne (Option.some.inj hup).symm

/-! ## A directory that gets a new parent -/

/-- A directory moves from one parent to another. -/
def Fs.move (fs : Fs Ino) (dp : Ino) (name : Name) (ip dp' : Ino) (name' : Name) : Fs Ino :=
  ((((fs.bump dp').enter dp' name' ip).drop dp).enter ip dotdot dp').remove dp name

theorem Linked.move {dp' : Ino} {name' : Name} (h : Linked x root fs)
    (hlookup : fs.lookup dp name = some ip) (hdot : name ≠ dot) (hdotdot : name ≠ dotdot)
    (hdir : fs.fmt ip = .dir) (hdp' : Proper fs dp') (hnew : fs.lookup dp' name' = none)
    (hne : dp ≠ dp') (hip : ip ≠ dp') (hself : dp ≠ ip) (hloop : fs.lookup dp' dotdot ≠ some ip)
    (hroom : fs.nlink dp' < 2 ^ 16 - 1) :
    Linked x root (fs.move dp name ip dp' name') := by
  obtain ⟨hdot', hdotdot'⟩ := hdp'.new_name hnew
  have hup := h.shape.tree dp name ip hlookup hdot hdotdot hdir
  have hlook (d : Ino) (n : Name) : (fs.move dp name ip dp' name').lookup d n =
      if d = dp ∧ n = name then none
      else if d = ip ∧ n = dotdot then some dp'
      else if d = dp' ∧ n = name' then some ip else fs.lookup d n := by
    rw [Fs.move, lookup_remove, lookup_enter, lookup_drop, lookup_enter, lookup_bump]
  have hbump := nlink_bump hroom
  obtain ⟨hdpdir, hdpself, -⟩ := h.shape.proper _ _ _ hlookup
  have hdppos : 0 < ((fs.bump dp').enter dp' name' ip).nlink dp := by
    rw [nlink_enter, hbump]
    have hpos := h.pos hdpself
    omega
  have hdpshort : ((fs.bump dp').enter dp' name' ip).nlink dp < 2 ^ 16 := short_bump h.short dp' dp
  have hdrop := nlink_drop hdppos hdpshort
  have hcount (i : Ino) : (fs.move dp name ip dp' name').nlink i + one dp i =
      fs.nlink i + one dp' i := by
    have hi := hdrop i
    rw [nlink_enter, hbump] at hi
    exact hi
  have hshort0 (i : Ino) : ((fs.bump dp').enter dp' name' ip).nlink i < 2 ^ 16 :=
    short_bump h.short dp' i
  have hshort (i : Ino) : (fs.move dp name ip dp' name').nlink i < 2 ^ 16 := short_drop hshort0 dp i
  have hexcess (j : Ino) : (fs.move dp name ip dp' name').excess j = x j := by
    -- what the two entries were before they are changed
    have hslot1 : slot ((fs.bump dp').dents dp') name' j = 0 := slot_of_none hnew j
    have hslot2 : slot ((((fs.bump dp').enter dp' name' ip).drop dp).dents ip) dotdot j =
        one dp j := by
      refine slot_of_some (?_ : Fs.lookup _ ip dotdot = some dp) j
      rw [lookup_drop, lookup_enter, if_neg fun hand => hip hand.1, lookup_bump, hup]
    have hslot3 : slot (((((fs.bump dp').enter dp' name' ip).drop dp).enter ip dotdot dp').dents dp)
        name j = one ip j := by
      refine slot_of_some (?_ : Fs.lookup _ dp name = some ip) j
      rw [lookup_enter, if_neg fun hand => hself hand.1, lookup_drop, lookup_enter,
        if_neg fun hand => hne hand.1, lookup_bump, hlookup]
    rw [Fs.move, excess_remove, excess_enter, excess_drop hdppos hdpshort, excess_enter,
      excess_bump hroom, h.excess, hslot1, hslot2, hslot3]
    omega
  have hkeep (d : Ino) (hproper : Proper fs d) : Proper (fs.move dp name ip dp' name') d := by
    obtain ⟨hd, hdself, up, hdup, hupdir⟩ := hproper
    refine ⟨hd, ?_, ?_⟩
    · rw [hlook, if_neg fun hand => hdot hand.2.symm, if_neg fun hand => by simp [dot, dotdot] at hand,
        if_neg fun hand => hdot' hand.2.symm, hdself]
    · rw [hlook, if_neg fun hand => hdotdot hand.2.symm]
      split
      · exact ⟨dp', rfl, hdp'.1⟩
      · rw [if_neg fun hand => hdotdot' hand.2.symm]
        exact ⟨up, hdup, hupdir⟩
  have hups (d : Ino) (hd : d ≠ ip) :
      (fs.move dp name ip dp' name').lookup d dotdot = fs.lookup d dotdot := by
    rw [hlook, if_neg fun hand => hdotdot hand.2.symm, if_neg fun hand => hd hand.1,
      if_neg fun hand => hdotdot' hand.2.symm]
  have hipup : (fs.move dp name ip dp' name').lookup ip dotdot = some dp' := by
    rw [hlook, if_neg fun hand => hdotdot hand.2.symm, if_pos ⟨rfl, rfl⟩]
  -- an ordinary entry is the new one, or an old one of another inode
  have hback (d : Ino) (n : Name) (i : Ino) (hn : n ≠ dot) (hn' : n ≠ dotdot)
      (hi : fs.fmt i = .dir) (hl : (fs.move dp name ip dp' name').lookup d n = some i) :
      (d = dp' ∧ n = name' ∧ i = ip) ∨ (fs.lookup d n = some i ∧ i ≠ ip) := by
    rw [hlook] at hl
    split at hl
    · cases hl
    · rename_i hother
      rw [if_neg fun hand => hn' hand.2] at hl
      split at hl
      · rename_i hthis
        cases hl
        exact .inl ⟨hthis.1, hthis.2, rfl⟩
      · refine .inr ⟨hl, fun heq => hother ?_⟩
        rw [heq] at hl hi
        have hd := h.shape.tree d n ip hl hn hn' hi
        rw [hup] at hd
        cases hd
        exact ⟨rfl, h.shape.unique dp n name ip hl hlookup hn hn' hdot hdotdot hi⟩
  refine ⟨counted_of_excess hexcess, hshort, ⟨fun d n i hl => ?_, fun d hd hn => ?_, fun i hi => ?_,
    fun d n i hl hn hn' hi => ?_, fun d n n' i hl hl' hn hn' hm hm' hi => ?_, fun d e hde hd => ?_,
    ?_⟩⟩
  · rw [hlook] at hl
    split at hl
    · cases hl
    · split at hl
      · rename_i hand
        exact hkeep d (hand.1 ▸ h.shape.proper _ _ _ hup)
      · split at hl
        · rename_i hand
          exact hkeep d (hand.1 ▸ hdp')
        · exact hkeep d (h.shape.proper _ _ _ hl)
  · have hproper : Proper fs d := by
      by_cases hd' : dp' = d
      · exact hd' ▸ hdp'
      · have hcd := hcount d
        rw [one_ne hd'] at hcd
        exact h.proper hd (by omega)
    exact ⟨dot, d, (hkeep d hproper).2.1⟩
  · have hdp'i : dp' ≠ i := by
      rintro rfl
      have hfree : fs.fmt dp' = .free := hi
      rw [hdp'.1] at hfree
      cases hfree
    have hci := hcount i
    rw [h.shape.free i hi, one_ne hdp'i] at hci
    omega
  · obtain ⟨rfl, -, rfl⟩ | ⟨hl, hi'⟩ := hback d n i hn hn' hi hl
    · exact hipup
    · rw [hups i hi']
      exact h.shape.tree d n i hl hn hn' hi
  · obtain ⟨-, rfl, rfl⟩ | ⟨hl, hi'⟩ := hback d n i hn hn' hi hl <;>
      obtain ⟨-, hname, heq⟩ | ⟨hl', hi''⟩ := hback d n' i hm hm' hi hl'
    · exact hname.symm
    · exact absurd rfl hi''
    · exact absurd heq hi'
    · exact h.shape.unique d n n' i hl hl' hn hn' hm hm' hi
  · by_cases hd' : d = ip
    · rw [hd', hipup] at hd
      cases hd
      rw [hups dp' (Ne.symm hip), hd']
      exact hloop
    · rw [hups d hd'] at hd
      by_cases he : e = ip
      · rw [he, hipup]
        rintro heq
        cases heq
        rw [he] at hd
        exact hloop hd
      · rw [hups e he]
        exact h.shape.noLoop d e hde hd
  · have htop := h.shape.top
    rw [hups root]
    · exact htop
    · rintro rfl
      rw [htop] at hup
      cases hup
      exact hself rfl

end DiscoBsd.Ufs
