import Mathlib.Data.Finmap
import DiscoBsd.Ufs.Links

/-!
# Link counts in every run

Each call is taken apart into the changes of `Ufs.Links`. `rename` looks its source up a second
time, when the new name is there already; `Alike` says that a directory is found again where it
was.
-/

namespace DiscoBsd.Ufs

open Lib

variable {Ino : Type} [DecidableEq Ino] [Fintype Ino] {fs fs' : Fs Ino} {root : Ino}
  {c : Caller Ino} {d dp ip i j : Ino} {n name : Name} {x : Ino → Nat}

/-! ## Counts up and down -/

section Counts

omit [Fintype Ino]

/-- The counts with one more. -/
def up (f : Ino → Nat) (ip : Ino) : Ino → Nat := Function.update f ip ((f ip + 1) % 2 ^ 16)

/-- The counts with one less. -/
def down (f : Ino → Nat) (ip : Ino) : Ino → Nat :=
  Function.update f ip ((f ip + (2 ^ 16 - 1)) % 2 ^ 16)

theorem bump_nlink : (fs.bump ip).nlink = up fs.nlink ip := by
  simp only [Fs.bump, up]

theorem drop_nlink : (fs.drop ip).nlink = down fs.nlink ip := by
  simp only [Fs.drop, down]

theorem down_up {f : Ino → Nat} (h : ∀ i, f i < 2 ^ 16) (i : Ino) : down (up f i) i = f := by
  have hi := h i
  rw [down, up, Function.update_self, Function.update_idem]
  refine Function.update_eq_self_iff.mpr ?_
  omega

theorem up_up_comm (f : Ino → Nat) (i j : Ino) : up (up f i) j = up (up f j) i := by
  by_cases hij : i = j
  · rw [hij]
  · rw [up, up, up, up, Function.update_of_ne (Ne.symm hij), Function.update_of_ne hij,
      Function.update_comm hij]

theorem down_down_comm (f : Ino → Nat) (i j : Ino) : down (down f i) j = down (down f j) i := by
  by_cases hij : i = j
  · rw [hij]
  · rw [down, down, down, down, Function.update_of_ne (Ne.symm hij), Function.update_of_ne hij,
      Function.update_comm hij]

theorem down_up_comm (f : Ino → Nat) (i j : Ino) : down (up f i) j = up (down f j) i := by
  by_cases hij : i = j
  · subst hij
    have hvalue : ((f i + 1) % 2 ^ 16 + (2 ^ 16 - 1)) % 2 ^ 16 =
        ((f i + (2 ^ 16 - 1)) % 2 ^ 16 + 1) % 2 ^ 16 := by omega
    rw [down, up, up, down, Function.update_self, Function.update_self, Function.update_idem,
      Function.update_idem, hvalue]
  · rw [down, up, up, down, Function.update_of_ne (Ne.symm hij), Function.update_of_ne hij,
      Function.update_comm hij]

theorem up_down {f : Ino → Nat} (h : ∀ i, f i < 2 ^ 16) (i : Ino) : up (down f i) i = f := by
  rw [← down_up_comm, down_up h]

theorem short_down {f : Ino → Nat} (h : ∀ i, f i < 2 ^ 16) (ip i : Ino) : down f ip i < 2 ^ 16 := by
  rw [down]
  by_cases hi : i = ip
  · rw [hi, Function.update_self]
    omega
  · rw [Function.update_of_ne hi]
    exact h i

theorem short_up {f : Ino → Nat} (h : ∀ i, f i < 2 ^ 16) (ip i : Ino) : up f ip i < 2 ^ 16 := by
  rw [up]
  by_cases hi : i = ip
  · rw [hi, Function.update_self]
    omega
  · rw [Function.update_of_ne hi]
    exact h i

end Counts

/-! ## The calls -/

/-- What the kernel is asked for. `reclaim` is the end of an inode that has no links left, when the
last process lets go of it. -/
inductive Call (Ino : Type) where
  | link (c : Caller Ino) (target linkname : Path)
  | unlink (c : Caller Ino) (fname : Path)
  | mkdir (c : Caller Ino) (path : Path) (new : Ino)
  | rmdir (c : Caller Ino) (path : Path)
  | rename (c : Caller Ino) (src dst : Path)
  | reclaim (ip : Ino)

/-- An inode without links becomes free. -/
def Fs.reclaim (fs : Fs Ino) (ip : Ino) : Option (Fs Ino) :=
  if fs.nlink ip = 0 then some { fs.itrunc ip with fmt := Function.update fs.fmt ip .free } else none

/-- A call that succeeds. -/
def Fs.call (fs : Fs Ino) (root : Ino) : Call Ino → Option (Fs Ino)
  | .link c target linkname => fs.link root c target linkname
  | .unlink c fname => fs.unlink root c fname
  | .mkdir c path new => fs.mkdir root c path new
  | .rmdir c path => fs.rmdir root c path
  | .rename c src dst => fs.rename root c src dst
  | .reclaim ip => fs.reclaim ip

/-- When a call keeps the counts right. `link` is not asked for a directory, and `unlink` not for
`.` or `..`, which only the superuser may; no count goes above an unsigned short; and a directory
that `rename` replaces is in another parent than the one that replaces it, and is not on the way to
it. -/
def Fs.Allowed (fs : Fs Ino) (root : Ino) : Call Ino → Prop
  | .link c target _ =>
    ∀ ip, fs.namei root c target = some ip → fs.fmt ip ≠ .dir ∧ fs.nlink ip < 2 ^ 16 - 1
  | .unlink c fname =>
    ∀ through dp name, fs.parent root c fname = some (through, dp, name) →
      name ≠ dot ∧ name ≠ dotdot
  | .mkdir c path _ =>
    ∀ through dp name, fs.parent root c path = some (through, dp, name) → fs.nlink dp < 2 ^ 16 - 1
  | .rmdir _ _ => True
  | .rename c src dst =>
    ∀ through dp name ip through' dp' name', fs.parent root c src = some (through, dp, name) →
      fs.lookup dp name = some ip → fs.parent root c dst = some (through', dp', name') →
      fs.nlink ip < 2 ^ 16 - 1 ∧ (fs.fmt ip = .dir →
        (fs.child c dp' name' = none → dp ≠ dp' → fs.nlink dp' < 2 ^ 16 - 1) ∧
        ∀ xp, fs.child c dp' name' = some xp → xp ≠ ip → dp ≠ dp' ∧ xp ∉ through)
  | .reclaim _ => True

/-- A step that meets the condition. -/
def Careful (root : Ino) (fs : Fs Ino) (call : Call Ino) (fs' : Fs Ino) : Prop :=
  fs.Allowed root call ∧ fs.call root call = some fs'

omit [Fintype Ino] in
theorem source_spec {path : Path} (h : fs.source root c path = some (dp, name, ip)) :
    (∃ through, fs.parent root c path = some (through, dp, name)) ∧ fs.lookup dp name = some ip ∧
      (c.write dp ∧ (dp ≠ ip → ¬ c.sticky dp ip)) := by
  simp only [Fs.source, Option.bind_eq_bind, Option.bind_eq_some_iff, Prod.exists,
    check_eq_some, Option.pure_def, Option.some.injEq, Prod.mk.injEq] at h
  obtain ⟨through, dp', name', hparent, ip', hlookup, u, hcheck, rfl, rfl, rfl⟩ := h
  exact ⟨⟨through, hparent⟩, hlookup, hcheck⟩

omit [Fintype Ino] in
theorem source_intro {path : Path} {through : List Ino}
    (hparent : fs.parent root c path = some (through, dp, name))
    (hlookup : fs.lookup dp name = some ip) (hcheck : c.write dp ∧ (dp ≠ ip → ¬ c.sticky dp ip)) :
    fs.source root c path = some (dp, name, ip) := by
  simp only [Fs.source, hparent, hlookup, Option.bind_eq_bind, Option.bind_some, check,
    if_pos hcheck, Option.pure_def]

omit [Fintype Ino] in
@[simp] theorem parent_bump (path : Path) :
    (fs.bump ip).parent root c path = fs.parent root c path := by
  apply parent_congr
  · rfl
  · rfl

omit [Fintype Ino] in
@[simp] theorem child_bump : (fs.bump ip).child c d n = fs.child c d n := rfl

theorem Linked.link {target linkname : Path} (h : Linked x root fs)
    (hcall : fs.link root c target linkname = some fs')
    (hok : fs.Allowed root (.link c target linkname)) : Linked x root fs' := by
  simp only [Fs.link, Option.bind_eq_bind, Option.bind_eq_some_iff, Prod.exists, check_eq_some,
    Option.pure_def, Option.some.injEq] at hcall
  obtain ⟨ip, hip, -, -, -, -, through, dp, name, hparent, -, hnew, -, ⟨hnlink, -⟩, rfl⟩ := hcall
  obtain ⟨hfile, hroom⟩ := hok ip hip
  rw [parent_bump] at hparent
  obtain ⟨hdir, -⟩ := parent_dir hparent
  have hpos : 0 < fs.nlink ip := by
    obtain hdir | ⟨d, n, hlookup⟩ := namei_spec hip
    · exact absurd hdir hfile
    · exact h.pos hlookup
  have hne : ip ≠ dp := fun heq => hfile (heq ▸ hdir)
  rw [nlink_bump hroom, one_ne hne] at hnlink
  exact h.enter (h.used hpos) hroom (fun hdir => absurd hdir hfile) (h.proper hdir hnlink) hnew

theorem Linked.unlink {fname : Path} (h : Linked x root fs)
    (hcall : fs.unlink root c fname = some fs') (hok : fs.Allowed root (.unlink c fname)) :
    Linked x root fs' := by
  simp only [Fs.unlink, Option.bind_eq_bind, Option.bind_eq_some_iff, Prod.exists, check_eq_some,
    Option.pure_def, Option.some.injEq] at hcall
  obtain ⟨dp, name, ip, hsource, -, -, -, -, rfl⟩ := hcall
  obtain ⟨⟨through, hparent⟩, hlookup, -⟩ := source_spec hsource
  obtain ⟨hdot, hdotdot⟩ := hok through dp name hparent
  exact h.remove hlookup hdot hdotdot

theorem Linked.call_mkdir {path : Path} {new : Ino} (h : Linked x root fs)
    (hcall : fs.mkdir root c path new = some fs') (hok : fs.Allowed root (.mkdir c path new)) :
    Linked x root fs' := by
  simp only [Fs.mkdir, Option.bind_eq_bind, Option.bind_eq_some_iff, Prod.exists, check_eq_some,
    Option.pure_def, Option.some.injEq] at hcall
  obtain ⟨through, dp, name, hparent, -, hnew, -, ⟨hnlink, -⟩, -, hfree, rfl⟩ := hcall
  obtain ⟨hdir, -⟩ := parent_dir hparent
  exact h.mkdir (h.proper hdir hnlink) hnew (hok through dp name hparent) hfree

theorem Linked.call_rmdir {path : Path} (h : Linked x root fs)
    (hcall : fs.rmdir root c path = some fs') : Linked x root fs' := by
  simp only [Fs.rmdir, Option.bind_eq_bind, Option.bind_eq_some_iff, Prod.exists, check_eq_some,
    Option.pure_def, Option.some.injEq] at hcall
  obtain ⟨dp, name, ip, hsource, -, ⟨hne, hdir⟩, -, ⟨htwo, hempty⟩, -, -, rfl⟩ := hcall
  obtain ⟨-, hlookup, -⟩ := source_spec hsource
  exact (h.rmdir hlookup hne hdir htwo hempty).1

/-- An inode that is freed had no entries. -/
theorem Linked.lookup_reclaim (h : Linked x root fs) (hcall : fs.reclaim ip = some fs') (d : Ino)
    (n : Name) : fs'.lookup d n = fs.lookup d n := by
  simp only [Fs.reclaim, Option.ite_none_right_eq_some, Option.some.injEq] at hcall
  obtain ⟨hzero, rfl⟩ := hcall
  have hempty : fs.lookup ip n = none := by
    cases hl : fs.lookup ip n with
    | none => rfl
    | some i => exact absurd (h.shape.proper _ _ _ hl).2.1 (h.unnamed hzero ip dot)
  show (fs.itrunc ip).lookup d n = _
  rw [lookup_itrunc]
  split
  · rename_i hd
    rw [hd, hempty]
  · rfl

theorem Linked.reclaim (h : Linked x root fs) (hcall : fs.reclaim ip = some fs') :
    Linked x root fs' := by
  have hlook := h.lookup_reclaim hcall
  simp only [Fs.reclaim, Option.ite_none_right_eq_some, Option.some.injEq] at hcall
  obtain ⟨hzero, rfl⟩ := hcall
  have hunnamed := h.unnamed hzero
  have hfmt {i : Ino} (hi : Function.update fs.fmt ip Format.free i = .dir) :
      i ≠ ip ∧ fs.fmt i = .dir := by
    by_cases heq : i = ip
    · rw [heq, Function.update_self] at hi
      cases hi
    · rw [Function.update_of_ne heq] at hi
      exact ⟨heq, hi⟩
  have hdir {i : Ino} (hne : i ≠ ip) (hi : fs.fmt i = .dir) :
      Function.update fs.fmt ip Format.free i = .dir := by
    rw [Function.update_of_ne hne]
    exact hi
  refine ⟨fun i => ?_, h.short, ⟨fun d n i hl => ?_, fun d hd hn => ?_, fun i hi => ?_,
    fun d n i hl hn hn' hi => ?_, fun d n n' i hl hl' hn hn' hm hm' hi => ?_, fun d e hde hd => ?_,
    ?_⟩⟩
  · rw [← indegree_congr (fun d n => (hlook d n).symm) i]
    exact h.counted i
  · rw [hlook] at hl
    obtain ⟨hd, hself, up, hup, hupdir⟩ := h.shape.proper _ _ _ hl
    refine ⟨hdir (fun heq => hunnamed d dot (heq ▸ hself)) hd, (hlook d dot).trans hself, up,
      (hlook d dotdot).trans hup, hdir (fun heq => hunnamed d dotdot (heq ▸ hup)) hupdir⟩
  · obtain ⟨n, i, hl⟩ := h.shape.alive d (hfmt hd).2 hn
    exact ⟨n, i, (hlook d n).trans hl⟩
  · by_cases heq : i = ip
    · rw [heq]
      exact hzero
    · refine h.shape.free i ?_
      have hi : Function.update fs.fmt ip Format.free i = .free := hi
      rwa [Function.update_of_ne heq] at hi
  · rw [hlook] at hl ⊢
    exact h.shape.tree d n i hl hn hn' (hfmt hi).2
  · rw [hlook] at hl hl'
    exact h.shape.unique d n n' i hl hl' hn hn' hm hm' (hfmt hi).2
  · rw [hlook] at hd ⊢
    exact h.shape.noLoop d e hde hd
  · rw [hlook]
    exact h.shape.top

/-! ## `rename` -/

/-- The end of the `rename` of a file. -/
theorem Linked.unlinkSource_file {src : Path} (h : Linked x root fs) (hfile : fs.fmt ip ≠ .dir)
    (hcall : fs.unlinkSource root c src ip none = some fs') : Linked x root fs' := by
  simp only [Fs.unlinkSource, if_neg hfile] at hcall
  split at hcall
  · cases hcall
    exact h
  · rename_i dp name xp hsource
    split at hcall
    · cases hcall
      exact h
    · rename_i heq
      cases hcall
      obtain ⟨-, hlookup, -⟩ := source_spec hsource
      rw [not_not.mp heq] at hlookup
      have hname : ¬ (name = dot ∨ name = dotdot) := fun hn =>
        hfile (h.shape.dots_dir hlookup hn)
      obtain ⟨hdot, hdotdot⟩ := not_or.mp hname
      exact h.remove hlookup hdot hdotdot

omit [Fintype Ino] in
theorem source_again {src : Path} {through : List Ino} {avoid : Ino → Prop} (halike : Alike fs fs' avoid)
    (hparent : fs.parent root c src = some (through, dp, name)) (hlookup : fs.lookup dp name = some ip)
    (hcheck : c.write dp ∧ (dp ≠ ip → ¬ c.sticky dp ip)) (havoid : ∀ v ∈ through, ¬ avoid v)
    (hip : ¬ avoid ip) : fs'.source root c src = some (dp, name, ip) :=
  source_intro (halike.parent hparent havoid)
    (halike.lookup dp name ip hlookup (havoid dp (parent_dir hparent).2) (.inl hip)) hcheck

omit [Fintype Ino] in
theorem alike_enter {fs' : Fs Ino} (hnew : fs.lookup dp name = none) (hfmt : fs'.fmt = fs.fmt)
    (hlookup : ∀ d n, fs'.lookup d n = if d = dp ∧ n = name then some ip else fs.lookup d n) :
    Alike fs fs' fun _ => False := by
  refine ⟨hfmt, nofun, fun d n i hl _ _ => ?_⟩
  rw [hlookup, if_neg, hl]
  rintro ⟨rfl, rfl⟩
  rw [hnew] at hl
  cases hl

/-- A directory gets another name in its parent. -/
theorem Linked.rename_here {name' : Name} (h : Linked x root fs)
    (hlookup : fs.lookup dp name = some ip) (hdot : name ≠ dot) (hdotdot : name ≠ dotdot)
    (hdir : fs.fmt ip = .dir) (hroom : fs.nlink ip < 2 ^ 16 - 1) (hself : dp ≠ ip)
    (hnew : fs.lookup dp name' = none) :
    Linked x root (((fs.bump ip).enter dp name' ip |>.remove dp name).drop ip) := by
  have hup := h.shape.tree dp name ip hlookup hdot hdotdot hdir
  have hproper := h.shape.proper _ _ _ hup
  have htwo : 2 ≤ fs.nlink ip := by
    have htwo : 2 ≤ indegree fs.dents ip := indegree_two hlookup hproper.2.1 (.inl hself)
    rw [h.counted]
    omega
  have hrem := h.remove hlookup hdot hdotdot
  have hlook (d : Ino) (n : Name) : ((fs.remove dp name).drop ip).lookup d n =
      if d = dp ∧ n = name then none else fs.lookup d n := lookup_remove
  have hdrop := nlink_drop (show 0 < (fs.remove dp name).nlink ip by rw [nlink_remove]; omega)
    (h.short ip)
  have hipcount := hdrop ip
  rw [one_self, nlink_remove] at hipcount
  have hpos' : 0 < ((fs.remove dp name).drop ip).nlink ip := by omega
  have hroom' : ((fs.remove dp name).drop ip).nlink ip < 2 ^ 16 - 1 := by omega
  have hdp' : Proper ((fs.remove dp name).drop ip) dp := by
    obtain ⟨-, hdpself, -⟩ := h.shape.proper _ _ _ hlookup
    refine hrem.shape.proper dp dot dp ?_
    rw [hlook, if_neg fun hand => hdot hand.2.symm, hdpself]
  have hup' : ((fs.remove dp name).drop ip).lookup ip dotdot = some dp := by
    rw [hlook, if_neg fun hand => hdotdot hand.2.symm, hup]
  have hunlinked : Unlinked ((fs.remove dp name).drop ip) ip := by
    intro d n hl
    rw [hlook] at hl
    split at hl
    · cases hl
    · rename_i hother
      by_contra hn
      obtain ⟨hn, hn'⟩ := not_or.mp hn
      have hd := h.shape.tree d n ip hl hn hn' hdir
      rw [hup] at hd
      cases hd
      exact hother ⟨rfl, h.shape.unique dp n name ip hl hlookup hn hn' hdot hdotdot hdir⟩
  have hne : name' ≠ name := by
    rintro rfl
    rw [hnew] at hlookup
    cases hlookup
  have hnew' : ((fs.remove dp name).drop ip).lookup dp name' = none := by
    rw [hlook, if_neg fun hand => hne hand.2, hnew]
  refine (hrem.enter (hrem.used hpos') hroom' (fun _ => ⟨hup', hunlinked⟩) hdp' hnew').congr ?_ (fun i => ?_)
    fun d n => ?_
  · simp only [fmt_enter, fmt_bump, fmt_drop, fmt_remove]
  · simp only [drop_nlink, bump_nlink, nlink_enter, nlink_remove]
    rw [down_up_comm]
  · rw [lookup_drop, lookup_remove, lookup_enter, lookup_bump, lookup_enter, lookup_bump, hlook]
    split
    · rename_i hand
      rw [if_neg fun hand' => hne (hand'.2.symm.trans hand.2)]
    · rfl

/-- A directory that `checkpath` lets be the new parent. -/
theorem checkpath_spec {dp' : Ino} (h : Shape root fs) (hcheck : fs.checkpath root ip dp' = true) :
    ip ≠ dp' ∧ fs.lookup dp' dotdot ≠ some ip := by
  rw [Fs.checkpath] at hcheck
  split at hcheck
  · cases hcheck
  rename_i hne
  refine ⟨Ne.symm hne, ?_⟩
  split at hcheck
  · rename_i hroot
    rw [hroot, h.top]
    intro heq
    exact hne (hroot.trans (Option.some.inj heq))
  · rw [Fs.checkpathLoop] at hcheck
    split at hcheck
    · cases hcheck
    · split at hcheck
      · cases hcheck
      · rename_i up hup
        split at hcheck
        · cases hcheck
        · rename_i hsource
          rw [hup]
          exact fun heq => hsource (Option.some.inj heq)

section Rename

variable {src : Path} {through : List Ino} {dp' xp : Ino} {name' : Name}

/-- A directory is moved to a new name in another directory. -/
theorem Linked.moved_new (h : Linked x root fs) (hlookup : fs.lookup dp name = some ip)
    (hdot : name ≠ dot) (hdotdot : name ≠ dotdot) (hself : dp ≠ ip) (hdir : fs.fmt ip = .dir)
    (hdp' : Proper fs dp') (hnew : fs.lookup dp' name' = none) (hne : dp ≠ dp') (hip : ip ≠ dp')
    (hloop : fs.lookup dp' dotdot ≠ some ip) (hroom' : fs.nlink dp' < 2 ^ 16 - 1) :
    Linked x root (((((((fs.bump ip).bump dp').enter dp' name' ip).drop dp).enter ip dotdot dp').remove dp
      name).drop ip) := by
  refine (h.move hlookup hdot hdotdot hdir hdp' hnew hne hip hself hloop hroom').congr ?_
    (fun i => ?_) fun d n => ?_
  · simp only [Fs.move, fmt_enter, fmt_bump, fmt_drop, fmt_remove]
  · simp only [Fs.move, drop_nlink, bump_nlink, nlink_enter, nlink_remove]
    rw [down_down_comm, up_up_comm, down_up (short_up h.short dp')]
  · simp only [Fs.move, lookup_drop, lookup_remove, lookup_enter, lookup_bump]

theorem Linked.rename_moved (h : Linked x root fs)
    (hparent : fs.parent root c src = some (through, dp, name)) (hlookup : fs.lookup dp name = some ip)
    (hcheck : c.write dp ∧ (dp ≠ ip → ¬ c.sticky dp ip)) (hdot : name ≠ dot)
    (hdotdot : name ≠ dotdot) (hself : dp ≠ ip) (hdir : fs.fmt ip = .dir) (hdp' : Proper fs dp')
    (hnew : fs.lookup dp' name' = none) (hne : dp ≠ dp') (hpath : fs.checkpath root ip dp' = true)
    (hroom' : fs.nlink dp' < 2 ^ 16 - 1)
    (hcall : (((fs.bump ip).bump dp').enter dp' name' ip).unlinkSource root c src ip (some dp') =
      some fs') : Linked x root fs' := by
  obtain ⟨hip, hloop⟩ := checkpath_spec h.shape hpath
  have hup := h.shape.tree dp name ip hlookup hdot hdotdot hdir
  have halike : Alike fs (((fs.bump ip).bump dp').enter dp' name' ip) fun _ => False :=
    alike_enter hnew (by simp only [fmt_enter, fmt_bump])
      fun d n => by rw [lookup_enter, lookup_bump, lookup_bump]
  have hagain := source_again halike hparent hlookup hcheck (fun _ _ => not_false) not_false
  have hstill : ((((fs.bump ip).bump dp').enter dp' name' ip).drop dp).lookup ip dotdot = some dp := by
    rw [lookup_drop, lookup_enter, if_neg fun hand => hip hand.1, lookup_bump, lookup_bump, hup]
  simp only [Fs.unlinkSource, hagain, ne_eq, not_true_eq_false, if_false, Option.some.injEq, hstill,
    reduceCtorEq] at hcall
  subst hcall
  exact h.moved_new hlookup hdot hdotdot hself hdir hdp' hnew hne hip hloop hroom'

/-- A directory is moved over an empty one in another directory: the same as the removal of the empty
one and a move to the name that it had. -/
theorem Linked.moved_over (h : Linked x root fs) (hlookup : fs.lookup dp name = some ip)
    (hdot : name ≠ dot) (hdotdot : name ≠ dotdot) (hself : dp ≠ ip) (hdir : fs.fmt ip = .dir)
    (hold : fs.lookup dp' name' = some xp) (hxp : xp ≠ dp') (hxip : xp ≠ ip)
    (hxdir : fs.fmt xp = .dir) (hempty : fs.dirempty xp dp' = true) (htwo : fs.nlink xp = 2)
    (hne : dp ≠ dp') (hip : ip ≠ dp') (hloop : fs.lookup dp' dotdot ≠ some ip) :
    Linked x root (((((((((fs.bump ip).enter dp' name' ip).drop xp).drop xp).itrunc xp).drop dp).enter ip
      dotdot dp').remove dp name).drop ip) := by
  obtain ⟨hgone, hlook, hcount, hdot', hdotdot'⟩ := h.rmdir hold (Ne.symm hxp) hxdir htwo hempty
  have hdx : dp ≠ xp := by
    rintro rfl
    exact (empty_entries hempty hlookup).elim hdot fun hand => hdotdot hand.1
  have hlookup' : (((((fs.remove dp' name').drop dp').drop xp).drop xp).itrunc xp).lookup dp name =
      some ip := by
    rw [hlook, if_neg hdx, if_neg fun hand => hne hand.1, hlookup]
  have hdp' : Proper (((((fs.remove dp' name').drop dp').drop xp).drop xp).itrunc xp) dp' := by
    obtain ⟨-, hself', -⟩ := h.shape.proper _ _ _ hold
    refine hgone.shape.proper dp' dot dp' ?_
    rw [hlook, if_neg (Ne.symm hxp), if_neg fun hand => hdot' hand.2.symm, hself']
  have hnew' : (((((fs.remove dp' name').drop dp').drop xp).drop xp).itrunc xp).lookup dp' name' =
      none := by
    rw [hlook, if_neg (Ne.symm hxp), if_pos ⟨rfl, rfl⟩]
  have hloop' : (((((fs.remove dp' name').drop dp').drop xp).drop xp).itrunc xp).lookup dp' dotdot ≠
      some ip := by
    rw [hlook, if_neg (Ne.symm hxp), if_neg fun hand => hdotdot' hand.2.symm]
    exact hloop
  have hroom' : (((((fs.remove dp' name').drop dp').drop xp).drop xp).itrunc xp).nlink dp' <
      2 ^ 16 - 1 := by
    have hcd := hcount dp'
    have hshort := h.short dp'
    rw [one_self] at hcd
    omega
  have hdir' : (((((fs.remove dp' name').drop dp').drop xp).drop xp).itrunc xp).fmt ip = .dir := by
    simp only [fmt_itrunc, fmt_drop, fmt_remove, hdir]
  refine (hgone.move hlookup' hdot hdotdot hdir' hdp' hnew' hne hip hself hloop' hroom').congr ?_
    (fun i => ?_) fun d n => ?_
  · simp only [Fs.move, fmt_enter, fmt_bump, fmt_drop, fmt_remove, fmt_itrunc]
  · simp only [Fs.move, drop_nlink, bump_nlink, nlink_enter, nlink_remove, nlink_itrunc]
    rw [down_down_comm _ dp ip, down_down_comm _ xp ip, down_down_comm _ xp ip, down_up h.short,
      down_down_comm _ dp' xp, down_down_comm _ dp' xp,
      up_down (short_down (short_down h.short xp) xp)]
  · simp only [Fs.move, lookup_drop, lookup_remove, lookup_enter, lookup_bump, lookup_itrunc]
    by_cases hd : d = xp
    · subst hd
      simp only [if_true, hxp, false_and, if_false]
    · by_cases hto : d = dp' ∧ n = name'
      · obtain ⟨rfl, rfl⟩ := hto
        simp only [and_self, if_true, hd, if_false]
      · simp only [hd, hto, if_false]

/-- A directory is moved over an empty one in another directory, and found again. -/
theorem Linked.rename_over (h : Linked x root fs)
    (hparent : fs.parent root c src = some (through, dp, name)) (hlookup : fs.lookup dp name = some ip)
    (hcheck : c.write dp ∧ (dp ≠ ip → ¬ c.sticky dp ip)) (hdot : name ≠ dot)
    (hdotdot : name ≠ dotdot) (hself : dp ≠ ip) (hdir : fs.fmt ip = .dir)
    (hold : fs.lookup dp' name' = some xp) (hxp : xp ≠ dp') (hxip : xp ≠ ip)
    (hxdir : fs.fmt xp = .dir) (hempty : fs.dirempty xp dp' = true) (htwo : fs.nlink xp = 2)
    (hne : dp ≠ dp') (hpath : fs.checkpath root ip dp' = true) (hway : xp ∉ through)
    (hcall : (((((fs.bump ip).enter dp' name' ip).drop xp).drop xp).itrunc xp).unlinkSource root c src
      ip (some dp') = some fs') : Linked x root fs' := by
  obtain ⟨hip, hloop⟩ := checkpath_spec h.shape hpath
  have hup := h.shape.tree dp name ip hlookup hdot hdotdot hdir
  obtain ⟨-, -, -, -, hdotdot'⟩ := h.rmdir hold (Ne.symm hxp) hxdir htwo hempty
  have hlook2 (d : Ino) (n : Name) :
      (((((fs.bump ip).enter dp' name' ip).drop xp).drop xp).itrunc xp).lookup d n =
        if d = xp then none else if d = dp' ∧ n = name' then some ip else fs.lookup d n := by
    rw [lookup_itrunc, lookup_drop, lookup_drop, lookup_enter, lookup_bump]
  -- the way to the source is the same as before
  have halike : Alike fs (((((fs.bump ip).enter dp' name' ip).drop xp).drop xp).itrunc xp)
      fun i => i = xp := by
    refine ⟨by simp only [fmt_itrunc, fmt_drop, fmt_enter, fmt_bump], fun i hi => hi ▸ hxdir,
      fun d n i hl hd hi => ?_⟩
    rw [hlook2, if_neg hd, if_neg, hl]
    rintro ⟨rfl, rfl⟩
    rw [hold] at hl
    cases hl
    exact hi.elim (fun hi => hi rfl) hdotdot'
  have hagain := source_again halike hparent hlookup hcheck
    (fun v hv heq => hway (heq ▸ hv)) (Ne.symm hxip)
  have hstill : ((((((fs.bump ip).enter dp' name' ip).drop xp).drop xp).itrunc xp).drop dp).lookup ip
      dotdot = some dp := by
    rw [lookup_drop, hlook2, if_neg (Ne.symm hxip), if_neg fun hand => hip hand.1, hup]
  simp only [Fs.unlinkSource, hagain, ne_eq, not_true_eq_false, if_false, Option.some.injEq, hstill,
    reduceCtorEq] at hcall
  subst hcall
  exact h.moved_over hlookup hdot hdotdot hself hdir hold hxp hxip hxdir hempty htwo hne hip hloop

/-- A file takes the name of another. -/
theorem Linked.replace_file (h : Linked x root fs) (hpos : 0 < fs.nlink ip)
    (hroom : fs.nlink ip < 2 ^ 16 - 1) (hfile : fs.fmt ip ≠ .dir)
    (hold : fs.lookup dp' name' = some xp) (hxip : xp ≠ ip) (hxfile : fs.fmt xp ≠ .dir) :
    Linked x root (((fs.bump ip).enter dp' name' ip).drop xp) := by
  have hname : ¬ (name' = dot ∨ name' = dotdot) := fun hn => hxfile (h.shape.dots_dir hold hn)
  obtain ⟨hdot, hdotdot⟩ := not_or.mp hname
  have hrem := h.remove hold hdot hdotdot
  have hlook (d : Ino) (n : Name) : ((fs.remove dp' name').drop xp).lookup d n =
      if d = dp' ∧ n = name' then none else fs.lookup d n := lookup_remove
  have hsame : ((fs.remove dp' name').drop xp).nlink ip = fs.nlink ip := by
    rw [drop_nlink, nlink_remove, down, Function.update_of_ne (Ne.symm hxip)]
  have hdp' : Proper ((fs.remove dp' name').drop xp) dp' := by
    obtain ⟨-, hself, -⟩ := h.shape.proper _ _ _ hold
    refine hrem.shape.proper dp' dot dp' ?_
    rw [hlook, if_neg fun hand => hdot hand.2.symm, hself]
  have hnew : ((fs.remove dp' name').drop xp).lookup dp' name' = none := by
    rw [hlook, if_pos ⟨rfl, rfl⟩]
  rw [← hsame] at hpos hroom
  refine (hrem.enter (hrem.used hpos) hroom (fun hd => absurd hd hfile) hdp' hnew).congr ?_ (fun i => ?_)
    fun d n => ?_
  · simp only [fmt_enter, fmt_bump, fmt_drop, fmt_remove]
  · simp only [drop_nlink, bump_nlink, nlink_enter, nlink_remove]
    rw [down_up_comm]
  · simp only [lookup_drop, lookup_enter, lookup_bump, lookup_remove]
    split
    · rfl
    · rfl

omit [Fintype Ino] in
theorem replace_dir {fs₂ : Fs Ino} (h : fs.replace dp' name' ip xp = some fs₂) (hdir : fs.fmt ip = .dir) :
    fs₂ = (((fs.enter dp' name' ip).drop xp).drop xp).itrunc xp ∧
      (((fs.enter dp' name' ip).drop xp).drop xp).nlink xp = 0 := by
  have hdir' : ((fs.enter dp' name' ip).drop xp).fmt ip = .dir := by
    rw [fmt_drop, fmt_enter, hdir]
  simp only [Fs.replace, if_pos hdir', Option.ite_none_right_eq_some, Option.some.injEq] at h
  exact ⟨h.2.symm, h.1⟩

omit [Fintype Ino] in
theorem replace_other {fs₂ : Fs Ino} (h : fs.replace dp' name' ip xp = some fs₂)
    (hfile : fs.fmt ip ≠ .dir) : fs₂ = (fs.enter dp' name' ip).drop xp := by
  have hfile' : ((fs.enter dp' name' ip).drop xp).fmt ip ≠ .dir := by
    rwa [fmt_drop, fmt_enter]
  simp only [Fs.replace, if_neg hfile', Option.some.injEq] at h
  exact h.symm

omit [Fintype Ino] in
theorem child_lookup (h : fs.child c dp' name' = some xp) (hne : xp ≠ dp') :
    fs.lookup dp' name' = some xp := by
  obtain ⟨ip', hlookup, heq⟩ := Option.map_eq_some_iff.mp h
  split at heq
  · exact absurd heq.symm hne
  · rw [hlookup, heq]

omit [Fintype Ino] in
theorem child_none (h : fs.child c dp' name' = none) : fs.lookup dp' name' = none :=
  Option.map_eq_none_iff.mp h

theorem checkpath_bump {j target : Ino} :
    (fs.bump j).checkpath root ip target = fs.checkpath root ip target := by
  have hloop (fuel : Nat) (target : Ino) :
      (fs.bump j).checkpathLoop root ip fuel target = fs.checkpathLoop root ip fuel target := by
    induction fuel generalizing target with
    | zero => rfl
    | succ fuel ih => simp only [Fs.checkpathLoop, fmt_bump, lookup_bump, ih]
  simp only [Fs.checkpath, hloop]

theorem two_links (h : Linked x root fs) (hxip : xp ≠ ip)
    (hzero : ((((fs.bump ip).enter dp' name' ip).drop xp).drop xp).nlink xp = 0) : fs.nlink xp = 2 := by
  have hshort := h.short xp
  rw [drop_nlink, drop_nlink, nlink_enter, bump_nlink, down, Function.update_self, down,
    Function.update_self, up, Function.update_of_ne hxip] at hzero
  omega

/-- The target of the `rename` does not exist. -/
theorem Linked.rename_new (h : Linked x root fs)
    (hparent : fs.parent root c src = some (through, dp, name)) (hlookup : fs.lookup dp name = some ip)
    (hcheck : c.write dp ∧ (dp ≠ ip → ¬ c.sticky dp ip)) (hroom : fs.nlink ip < 2 ^ 16 - 1)
    (hroom' : fs.fmt ip = .dir → dp ≠ dp' → fs.nlink dp' < 2 ^ 16 - 1)
    (hname : fs.fmt ip = .dir → name ≠ dot ∧ name ≠ dotdot ∧ dp ≠ ip) (hdp' : Proper fs dp')
    (hpath : fs.fmt ip = .dir → dp ≠ dp' → fs.checkpath root ip dp' = true)
    (hnew : fs.lookup dp' name' = none) {moved : Option Ino}
    (hmoved : moved = if fs.fmt ip = .dir ∧ dp ≠ dp' then some dp' else none)
    (hcall : ((if moved ≠ none then (fs.bump ip).bump dp' else fs.bump ip).enter dp' name'
      ip).unlinkSource root c src ip moved = some fs') : Linked x root fs' := by
  by_cases hdir : fs.fmt ip = .dir
  · obtain ⟨hdot, hdotdot, hself⟩ := hname hdir
    by_cases hne : dp = dp'
    · subst hne
      rw [if_neg fun hand => hand.2 rfl] at hmoved
      subst hmoved
      rw [if_neg fun hnone => hnone rfl] at hcall
      have halike : Alike fs ((fs.bump ip).enter dp name' ip) fun _ => False :=
        alike_enter hnew (by simp only [fmt_enter, fmt_bump]) fun d n => by rw [lookup_enter, lookup_bump]
      have hagain := source_again halike hparent hlookup hcheck (fun _ _ => not_false) not_false
      simp only [Fs.unlinkSource, hagain, ne_eq, not_true_eq_false, if_false,
        Option.some.injEq] at hcall
      subst hcall
      exact h.rename_here hlookup hdot hdotdot hdir hroom hself hnew
    · rw [if_pos ⟨hdir, hne⟩] at hmoved
      subst hmoved
      rw [if_pos (Option.some_ne_none _)] at hcall
      exact h.rename_moved hparent hlookup hcheck hdot hdotdot hself hdir hdp' hnew hne
        (hpath hdir hne) (hroom' hdir hne) hcall
  · rw [if_neg fun hand => hdir hand.1] at hmoved
    subst hmoved
    rw [if_neg fun hnone => hnone rfl] at hcall
    refine Linked.unlinkSource_file ?_ ?_ hcall
    · exact h.enter (h.used (h.pos hlookup)) hroom (fun hd => absurd hd hdir) hdp' hnew
    · rwa [fmt_enter, fmt_bump]

/-- The target of the `rename` exists, and is something else than the source. -/
theorem Linked.rename_old (h : Linked x root fs)
    (hparent : fs.parent root c src = some (through, dp, name)) (hlookup : fs.lookup dp name = some ip)
    (hcheck : c.write dp ∧ (dp ≠ ip → ¬ c.sticky dp ip)) (hroom : fs.nlink ip < 2 ^ 16 - 1)
    (hname : fs.fmt ip = .dir → name ≠ dot ∧ name ≠ dotdot ∧ dp ≠ ip)
    (hok : fs.fmt ip = .dir → dp ≠ dp' ∧ xp ∉ through)
    (hpath : fs.fmt ip = .dir → dp ≠ dp' → fs.checkpath root ip dp' = true)
    (hold : fs.lookup dp' name' = some xp) (hxp : xp ≠ dp') (hxip : xp ≠ ip)
    (hkind : if fs.fmt xp = .dir then fs.dirempty xp dp' = true ∧ fs.fmt ip = .dir
      else fs.fmt ip ≠ .dir) {fs₂ : Fs Ino}
    (hreplace : (fs.bump ip).replace dp' name' ip xp = some fs₂)
    (hcall : fs₂.unlinkSource root c src ip
      (if fs.fmt ip = .dir ∧ dp ≠ dp' then some dp' else none) = some fs') : Linked x root fs' := by
  by_cases hdir : fs.fmt ip = .dir
  · obtain ⟨hdot, hdotdot, hself⟩ := hname hdir
    obtain ⟨hne, hway⟩ := hok hdir
    obtain ⟨rfl, hzero⟩ := replace_dir hreplace (by rw [fmt_bump, hdir])
    rw [if_pos ⟨hdir, hne⟩] at hcall
    split at hkind
    · rename_i hxdir
      exact h.rename_over hparent hlookup hcheck hdot hdotdot hself hdir hold hxp hxip hxdir hkind.1
        (two_links h hxip hzero) hne (hpath hdir hne) hway hcall
    · exact absurd hdir hkind
  · rw [if_neg fun hand => hdir hand.1] at hcall
    have hxfile : fs.fmt xp ≠ .dir := by
      intro hxdir
      rw [if_pos hxdir] at hkind
      exact hdir hkind.2
    obtain rfl := replace_other hreplace (by rwa [fmt_bump])
    refine Linked.unlinkSource_file ?_ ?_ hcall
    · exact h.replace_file (h.pos hlookup) hroom hdir hold hxip hxfile
    · rwa [fmt_drop, fmt_enter, fmt_bump]

end Rename

theorem Linked.rename {src dst : Path} (h : Linked x root fs)
    (hcall : fs.rename root c src dst = some fs') (hok : fs.Allowed root (.rename c src dst)) :
    Linked x root fs' := by
  simp only [Fs.rename, Option.bind_eq_bind, Option.bind_eq_some_iff, Prod.exists, check_eq_some,
    Option.pure_def, parent_bump, child_bump, fmt_bump, checkpath_bump] at hcall
  obtain ⟨dp, name, ip, hsource, -, -, -, hname, through', dp', name', hparent', -, -, -, hpath,
    hcall⟩ := hcall
  obtain ⟨⟨through, hparent⟩, hlookup, hcheck⟩ := source_spec hsource
  obtain ⟨hroom, hdirs⟩ := hok through dp name ip through' dp' name' hparent hlookup hparent'
  have hpath' (hdir : fs.fmt ip = .dir) (hne : dp ≠ dp') : fs.checkpath root ip dp' = true := by
    rw [if_pos ⟨hdir, hne⟩] at hpath
    exact (hpath (Option.some_ne_none _)).2
  cases hchild : fs.child c dp' name' with
  | none =>
    simp only [hchild, Option.bind_eq_some_iff, check_eq_some] at hcall
    obtain ⟨-, hnlink, hcall⟩ := hcall
    have hinuse : fs.nlink dp' ≠ 0 := by
      intro hzero
      rw [nlink_bump hroom, hzero] at hnlink
      have hne : ip ≠ dp' := fun heq => by
        have hpos := h.pos hlookup
        rw [heq] at hpos
        omega
      rw [one_ne hne] at hnlink
      exact hnlink rfl
    exact h.rename_new hparent hlookup hcheck hroom (fun hdir => (hdirs hdir).1 hchild) hname
      (h.proper (parent_dir hparent').1 hinuse) hpath' (child_none hchild) rfl hcall
  | some xp =>
    simp only [hchild, Option.bind_eq_some_iff, check_eq_some] at hcall
    obtain ⟨-, hxp, -, -, hcall⟩ := hcall
    split at hcall
    · cases hcall
      refine h.congr ?_ (fun i => ?_) fun d n => ?_
      · simp only [fmt_drop, fmt_bump]
      · rw [drop_nlink, bump_nlink, down_up h.short]
      · rw [lookup_drop, lookup_bump]
    · rename_i hxip
      simp only [Option.bind_eq_some_iff, check_eq_some] at hcall
      obtain ⟨-, -, -, hkind, fs₂, hreplace, hcall⟩ := hcall
      refine h.rename_old hparent hlookup hcheck hroom hname (fun hdir => (hdirs hdir).2 xp hchild hxip)
        hpath' (child_lookup hchild hxp) hxp hxip ?_ hreplace hcall
      split
      · rename_i hxdir
        rw [if_pos hxdir] at hkind
        exact ⟨hkind.1, hkind.2.2⟩
      · rename_i hxfile
        rwa [if_neg hxfile] at hkind

/-! ## Runs -/

/-- One call that meets the condition keeps the counts right. -/
theorem Linked.step {call : Call Ino} (h : Linked x root fs) (hstep : Careful root fs call fs') :
    Linked x root fs' := by
  obtain ⟨hok, hcall⟩ := hstep
  cases call with
  | link c target linkname => exact h.link hcall hok
  | unlink c fname => exact h.unlink hcall hok
  | mkdir c path new => exact h.call_mkdir hcall hok
  | rmdir c path => exact h.call_rmdir hcall
  | rename c src dst => exact h.rename hcall hok
  | reclaim ip => exact h.reclaim hcall

/-- In every run of calls that meet the condition, every count is the number of entries that name
the inode. -/
theorem links_counted {calls : List (Call Ino)} (h : Consistent root fs)
    (hrun : Steps (Careful root) fs calls fs') (i : Ino) : fs'.nlink i = indegree fs'.dents i :=
  (hrun.invariant (Consistent root) (fun _ _ _ h hstep => h.step hstep) h).counted i

/-- A file system with nothing but its root directory. -/
def fresh (root : Ino) : Fs Ino where
  fmt i := if i = root then .dir else .free
  nlink i := if i = root then 2 else 0
  dents i := if i = root then (AList.singleton dotdot root).insert dot root else ∅

omit [Fintype Ino] in
theorem lookup_fresh : (fresh root).lookup d n = some i ↔ d = root ∧ i = root ∧ (n = dot ∨ n = dotdot) := by
  simp only [Fs.lookup, fresh]
  by_cases hd : d = root
  · rw [if_pos hd]
    by_cases hdot : n = dot
    · rw [hdot, AList.lookup_insert]
      simp [hd, eq_comm]
    · rw [AList.lookup_insert_ne hdot]
      by_cases hdotdot : n = dotdot
      · rw [hdotdot]
        simp [hd, AList.singleton, AList.lookup, eq_comm]
      · simp [hd, hdot, hdotdot, AList.singleton, AList.lookup]
  · rw [if_neg hd, AList.lookup_empty]
    simp [hd]

theorem consistent_fresh (root : Ino) : Consistent root (fresh root) := by
  have hdotdot : (fresh root).lookup root dotdot = some root := lookup_fresh.mpr ⟨rfl, rfl, .inr rfl⟩
  have hdot : (fresh root).lookup root dot = some root := lookup_fresh.mpr ⟨rfl, rfl, .inl rfl⟩
  have hdir : (fresh root).fmt root = .dir := if_pos rfl
  refine ⟨fun i => ?_, fun i => ?_, ⟨fun d n i hl => ?_, fun d hd _ => ?_, fun i hi => ?_,
    fun d n i hl hn hn' _ => ?_, fun d n n' i hl _ hn hn' _ _ _ => ?_, fun d e hde hd => ?_, hdotdot⟩⟩
  · have hdents : (fresh root).dents = Function.update (fun _ => ∅) root
        ((AList.singleton dotdot root).insert dot root) := by
      funext d
      simp only [fresh, Function.update_apply]
    have hnone : indegree (fun _ : Ino => (∅ : Edges Name Ino)) i = 0 :=
      Finset.sum_eq_zero fun _ _ => edgesTo_empty i
    have hupdate := indegree_update (fun _ : Ino => (∅ : Edges Name Ino)) root
      ((AList.singleton dotdot root).insert dot root) i
    rw [hnone, edgesTo_empty, edgesTo_virgin, Nat.add_zero, Nat.zero_add] at hupdate
    rw [hdents, hupdate]
    by_cases hroot : i = root
    · rw [hroot, one_self]
      simp only [fresh, if_true]
    · rw [one_ne (Ne.symm hroot)]
      simp only [fresh, if_neg hroot]
  · simp only [fresh]
    split
    · omega
    · omega
  · obtain ⟨rfl, rfl, -⟩ := lookup_fresh.mp hl
    exact ⟨hdir, hdot, _, hdotdot, hdir⟩
  · have hroot : d = root := by
      by_contra hne
      simp [fresh, hne] at hd
    exact ⟨dot, root, hroot ▸ hdot⟩
  · refine if_neg fun hroot => ?_
    rw [hroot, hdir] at hi
    cases hi
  · exact absurd (lookup_fresh.mp hl).2.2 (not_or.mpr ⟨hn, hn'⟩)
  · exact absurd (lookup_fresh.mp hl).2.2 (not_or.mpr ⟨hn, hn'⟩)
  · obtain ⟨rfl, rfl, -⟩ := lookup_fresh.mp hd
    exact absurd rfl hde

omit [DecidableEq Ino] [Fintype Ino] in
theorem forall_parent {o : Option (List Ino × Ino × Name)} {p : List Ino → Ino → Name → Prop} :
    (∀ r ∈ o, p r.1 r.2.1 r.2.2) ↔ ∀ through dp name, o = some (through, dp, name) → p through dp name := by
  simp [Prod.forall, Option.mem_def]

instance (root : Ino) (fs : Fs Ino) (call : Call Ino) : Decidable (fs.Allowed root call) :=
  match call with
  | .link c target _ => inferInstanceAs (Decidable (∀ ip ∈ fs.namei root c target,
      fs.fmt ip ≠ .dir ∧ fs.nlink ip < 2 ^ 16 - 1))
  | .unlink _ _ => decidable_of_iff _ forall_parent
  | .mkdir _ _ _ => decidable_of_iff _ forall_parent
  | .rmdir _ _ => inferInstanceAs (Decidable True)
  | .rename c src dst => decidable_of_iff (∀ r ∈ fs.parent root c src, ∀ ip ∈ fs.lookup r.2.1 r.2.2,
      ∀ r' ∈ fs.parent root c dst, fs.nlink ip < 2 ^ 16 - 1 ∧ (fs.fmt ip = .dir →
        (fs.child c r'.2.1 r'.2.2 = none → r.2.1 ≠ r'.2.1 → fs.nlink r'.2.1 < 2 ^ 16 - 1) ∧
        ∀ xp ∈ fs.child c r'.2.1 r'.2.2, xp ≠ ip → r.2.1 ≠ r'.2.1 ∧ xp ∉ r.1)) (by
      simp only [Prod.forall, Option.mem_def, Fs.Allowed]
      constructor
      · intro h through dp name ip through' dp' name' hp hl hp'
        exact h through dp name hp ip hl through' dp' name' hp'
      · intro h through dp name hp ip hl through' dp' name' hp'
        exact h through dp name ip through' dp' name' hp hl hp')
  | .reclaim _ => inferInstanceAs (Decidable True)

/-- A call that succeeds and meets the condition. -/
def Fs.careful (root : Ino) (fs : Fs Ino) (call : Call Ino) : Option (Fs Ino) :=
  if fs.Allowed root call then fs.call root call else none

theorem careful_steps {calls : List (Call Ino)} (h : calls.foldlM (Fs.careful root) fs = some fs') :
    Steps (Careful root) fs calls fs' :=
  (Steps.of_foldlM h).mono fun _ _ _ hstep => by
    simp only [Steps.Of, Fs.careful, Option.ite_none_right_eq_some] at hstep
    exact hstep

/-- The superuser, in the root directory. -/
def superuser (root : Ino) : Caller Ino where
  cdir := root
  rdir := none
  suser := true
  exec _ := true
  write _ := true
  frozen _ := false
  append _ := false
  sticky _ _ := false

/-- Two directories in the root, one with a directory of its own, and the other takes its place. -/
def moved : List (Call (Fin 5)) :=
  [.mkdir (superuser 0) ⟨true, [[97]]⟩ 1, .mkdir (superuser 0) ⟨true, [[98]]⟩ 2,
    .mkdir (superuser 0) ⟨true, [[98], [97]]⟩ 3,
    .rename (superuser 0) ⟨true, [[97]]⟩ ⟨true, [[98], [97]]⟩]

theorem links_counted_moved : ∃ fs' : Fs (Fin 5), Steps (Careful 0) (fresh 0) moved fs' ∧
    List.ofFn fs'.nlink = [3, 2, 3, 0, 0] ∧ ∀ i, fs'.nlink i = indegree fs'.dents i := by
  have hrun : (moved.foldlM (Fs.careful 0) (fresh 0)).map (fun fs' => List.ofFn fs'.nlink) =
      some [3, 2, 3, 0, 0] := by
    decide +kernel
  obtain ⟨fs', hrun, hcounts⟩ := Option.map_eq_some_iff.mp hrun
  exact ⟨fs', careful_steps hrun, hcounts, links_counted (consistent_fresh 0) (careful_steps hrun)⟩

local instance threeNeZero : NeZero 3 := ⟨by decide⟩

/-- Two empty directories in the root, and one is renamed onto the other. -/
def merged : List (Call (Fin 3)) :=
  [.mkdir (superuser 0) ⟨true, [[97]]⟩ 1, .mkdir (superuser 0) ⟨true, [[98]]⟩ 2,
    .rename (superuser 0) ⟨true, [[97]]⟩ ⟨true, [[98]]⟩]

/-- The root keeps the count of both directories when only one is left. -/
theorem links_miscounted : ¬ ∀ (fs fs' : Fs (Fin 3)) (calls : List (Call (Fin 3))), Consistent 0 fs →
    Steps (Steps.Of fun fs call => fs.call 0 call) fs calls fs' →
    ∀ i, fs'.nlink i = indegree fs'.dents i := by
  intro h
  have hrun : (merged.foldlM (fun (fs : Fs (Fin 3)) call => fs.call 0 call) (fresh 0)).map
      (fun fs' => (fs'.nlink 0, indegree fs'.dents 0)) = some (4, 3) := by
    decide +kernel
  obtain ⟨fs', hrun, hcounts⟩ := Option.map_eq_some_iff.mp hrun
  have hcount := h (fresh 0) fs' merged (consistent_fresh 0) (Steps.of_foldlM hrun) 0
  simp only [Prod.mk.injEq] at hcounts
  omega

end DiscoBsd.Ufs
