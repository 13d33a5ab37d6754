import DiscoBsd.File.CountRuns
import DiscoBsd.File.Copen

/-!
# What a call of open leaves

`copen` succeeds with a descriptor that was free and refers to a file now, or fails with the tables
as they were. `copen_consistent_iff` has the exception: the error of `dupfdopen` is overwritten with
the outcome of its comparison, so a descriptor that cannot be duplicated makes the call return 0
without a file.
-/

namespace DiscoBsd.File.Open

open DiscoBsd.File

variable {NFILE nproc : Nat} {Ino : Type}

namespace State

variable {s t : State NFILE nproc Ino} {p : Fin nproc} {a : Answers Ino}

/-- The open descriptors of all processes. -/
def rows (s : State NFILE nproc Ino) : Fin nproc → Fin NOFILE → Option (Fin NFILE) :=
  Users.rows s.k.u

/-- Descriptors, entries and inodes are as they were. -/
structure Unchanged (s t : State NFILE nproc Ino) : Prop where
  rows : t.rows = s.rows
  f_count : t.k.f_count = s.k.f_count
  i_count : t.i_count = s.i_count

/-- A free descriptor, the value of the call, refers to a file now: one that was open, or one with
an inode. The file counts it. -/
structure Succeeded (s : State NFILE nproc Ino) (p : Fin nproc) (t : State NFILE nproc Ino) (fd : Fin NOFILE)
    (fp : Fin NFILE) : Prop where
  rval : (t.k.u p).u_rval = fd
  free : s.rows p fd = none
  rows : t.rows = Function.update s.rows p (Function.update (s.rows p) fd (some fp))
  f_count : t.k.f_count = Function.update s.k.f_count fp (s.k.f_count fp + 1)
  file : s.k.f_count fp ≠ 0 ∨ (t.f_data fp).isSome

/-- What a call returns agrees with what it leaves. -/
def Consistent (s : State NFILE nproc Ino) (p : Fin nproc) (result : Nat × State NFILE nproc Ino) :
    Prop :=
  result.1 = 0 ∧ (∃ fd fp, s.Succeeded p result.2 fd fp) ∨ result.1 ≠ 0 ∧ s.Unchanged result.2

/-- A descriptor that was open, with the access that is asked for. -/
def Dupable (s : State NFILE nproc Ino) (p : Fin nproc) (mode : BitVec 32) (minor : Nat) : Prop :=
  ∃ (h : minor < NOFILE) (wfp : Fin NFILE), s.rows p ⟨minor, h⟩ = some wfp ∧
    (FFLAGS mode &&& (FREAD ||| FWRITE)) ||| s.k.f_flag wfp = s.k.f_flag wfp

/-! ## Descriptors and entries -/

/-- `falloc` finds a full table, or a free descriptor and a free entry. -/
theorem falloc_cases (k : Kernel NFILE nproc) (p : Fin nproc) :
    (∃ k', k.falloc p = (none, k') ∧ Users.rows k'.u = Users.rows k.u ∧ k'.f_count = k.f_count) ∨
      ∃ indx fp k', k.falloc p = (some (indx, fp), k') ∧ Users.rows k.u p indx = none ∧
        k.f_count fp = 0 ∧
        Users.rows k'.u =
          Function.update (Users.rows k.u) p (Function.update (Users.rows k.u p) indx (some fp)) ∧
        k'.f_count = Function.update k.f_count fp 1 ∧ k'.f_flag = k.f_flag ∧
        (k'.u p).u_rval = indx := by
  have hrows : ∀ change : User NFILE → User NFILE, (change (k.u p)).u_ofile = (k.u p).u_ofile →
      Users.rows (k.onUser p change).u = Users.rows k.u := by
    intro change hsame
    rw [Kernel.rows_onUser, hsame]
    exact Function.update_eq_self p (Users.rows k.u)
  unfold Kernel.falloc
  rcases Kernel.ufalloc_cases k p 0 with hfull | ⟨indx, hfree, halloc⟩
  · rw [hfull]
    exact .inl ⟨_, rfl, hrows _ rfl, rfl⟩
  rw [halloc]
  dsimp only
  have hrows' := hrows (fun u => ((u.rval indx).setFlags indx 0).raiseLastfile indx) rfl
  have hrow : ((k.onUser p fun u => ((u.rval indx).setFlags indx 0).raiseLastfile indx).u p).u_ofile =
      Users.rows k.u p := congrFun hrows' p
  split
  · refine .inl ⟨_, rfl, ?_, rfl⟩
    rw [Kernel.rows_onUser, hrows']
    refine Eq.trans (congrArg _ hrow) ?_
    exact Function.update_eq_self p (Users.rows k.u)
  · rename_i fp hfind
    refine .inr ⟨indx, fp, _, rfl, hfree, Kernel.findFile_free hfind, ?_, rfl, rfl, ?_⟩
    · show Users.rows (Kernel.onUser _ p (User.put indx (some fp))).u = _
      rw [Kernel.rows_onUser, hrows']
      exact congrArg (fun row => Function.update (Users.rows k.u) p (Function.update row indx (some fp))) hrow
    · show ((Kernel.onUser _ p (User.put indx (some fp))).u p).u_rval = _
      rw [Kernel.u_onUser_self]
      show ((k.onUser p fun u => ((u.rval indx).setFlags indx 0).raiseLastfile indx).u p).u_rval = _
      rw [Kernel.u_onUser_self]
      rfl

/-- The tables with the descriptor and the entry that `falloc` has found. -/
structure Allocated (s : State NFILE nproc Ino) (p : Fin nproc) (indx : Fin NOFILE) (fp : Fin NFILE)
    (t : State NFILE nproc Ino) : Prop where
  free : s.rows p indx = none
  entry : s.k.f_count fp = 0
  rows : t.rows = Function.update s.rows p (Function.update (s.rows p) indx (some fp))
  f_count : t.k.f_count = Function.update s.k.f_count fp 1
  f_flag : ∀ other, other ≠ fp → t.k.f_flag other = s.k.f_flag other
  rval : (t.k.u p).u_rval = indx

theorem rows_onUser (k : Kernel NFILE nproc) (change : User NFILE → User NFILE) :
    (t.withKernel (k.onUser p change)).rows =
      Function.update (Users.rows k.u) p (change (k.u p)).u_ofile := Kernel.rows_onUser k p change

namespace Allocated

variable {indx : Fin NOFILE} {fp : Fin NFILE}

theorem row (h : s.Allocated p indx fp t) :
    (t.k.u p).u_ofile = Function.update (s.rows p) indx (some fp) := by
  show t.rows p = _
  rw [h.rows, Function.update_self]

theorem rows_put (h : s.Allocated p indx fp t) {k : Kernel NFILE nproc} (hu : k.u = t.k.u) :
    (t.withKernel (k.onUser p (User.put indx none))).rows = s.rows := by
  rw [rows_onUser, hu, show Users.rows t.k.u = _ from h.rows, Function.update_idem]
  show Function.update s.rows p (Function.update (t.k.u p).u_ofile indx none) = s.rows
  rw [h.row, Function.update_idem, ← h.free, Function.update_eq_self, Function.update_eq_self]

theorem count_zero (h : s.Allocated p indx fp t) :
    Function.update t.k.f_count fp 0 = s.k.f_count := by
  rw [h.f_count, Function.update_idem, ← h.entry, Function.update_eq_self]

theorem congr (h : s.Allocated p indx fp t) {t' : State NFILE nproc Ino} (hk : t'.k = t.k) :
    s.Allocated p indx fp t' where
  free := h.free
  entry := h.entry
  rows := Eq.trans (congrArg (fun k : Kernel NFILE nproc => Users.rows k.u) hk) h.rows
  f_count := (congrArg Kernel.f_count hk).trans h.f_count
  f_flag other hother := (congrFun (congrArg Kernel.f_flag hk) other).trans (h.f_flag other hother)
  rval := Eq.trans (congrArg (fun k : Kernel NFILE nproc => (k.u p).u_rval) hk) h.rval

theorem succeeded (h : s.Allocated p indx fp t) (hfile : (t.f_data fp).isSome) :
    s.Consistent p (0, t) := by
  refine .inl ⟨rfl, indx, fp, h.rval, h.free, h.rows, ?_, .inr hfile⟩
  rw [h.entry]
  exact h.f_count

theorem unchanged (h : s.Allocated p indx fp t) (hi : t.i_count = s.i_count) :
    s.Unchanged (t.withKernel ((t.k.setCount fp 0).onUser p (User.put indx none))) :=
  ⟨h.rows_put rfl, h.count_zero, hi⟩

end Allocated

theorem not_consistent (hrows : t.rows = s.rows) : ¬ s.Consistent p (0, t) := by
  rintro (⟨-, fd, fp, h⟩ | ⟨h, -⟩)
  · have hrow := congrFun (congrFun h.rows p) fd
    rw [hrows, Function.update_self, Function.update_self, h.free] at hrow
    cases hrow
  · exact h rfl

/-! ## The error of `/dev/fd` -/

/-- `dupfdopen` fails and leaves the tables, or makes the descriptor refer to the other's file. -/
theorem dupfdopen_cases (k : Kernel NFILE nproc) (p : Fin nproc) (indx : Fin NOFILE) (minor : Nat)
    (mode : BitVec 32) :
    ((∃ error : Error, dupfdopen k p indx minor mode ENODEV = (error.1, k)) ∧
        ∀ (h : minor < NOFILE) (wfp : Fin NFILE), (k.u p).u_ofile ⟨minor, h⟩ = some wfp →
          (k.u p).u_ofile indx ≠ some wfp →
            (mode &&& (FREAD ||| FWRITE)) ||| k.f_flag wfp ≠ k.f_flag wfp) ∨
      ∃ (h : minor < NOFILE) (wfp : Fin NFILE), (k.u p).u_ofile ⟨minor, h⟩ = some wfp ∧
        (k.u p).u_ofile indx ≠ some wfp ∧
        (mode &&& (FREAD ||| FWRITE)) ||| k.f_flag wfp = k.f_flag wfp ∧
        dupfdopen k p indx minor mode ENODEV = (0, (k.onUser p fun u =>
          ((u.put indx (some wfp)).setFlags indx (u.u_pofile ⟨minor, h⟩)).raiseLastfile
            indx).setCount wfp (k.f_count wfp + 1)) := by
  unfold dupfdopen
  by_cases hlt : minor < NOFILE
  · have hget : k.getf p minor =
        ((k.u p).u_ofile ⟨minor, hlt⟩).map fun wfp => (⟨minor, hlt⟩, wfp) :=
      dif_pos ⟨Int.natCast_nonneg minor, hlt⟩
    cases hrow : (k.u p).u_ofile ⟨minor, hlt⟩ with
    | none =>
        rw [hget, hrow]
        refine .inl ⟨⟨EBADF, rfl⟩, fun _ wfp hwfp => ?_⟩
        cases hrow.symm.trans hwfp
    | some wfp =>
        rw [hget, hrow]
        dsimp only [Option.map_some]
        have hsame : ∀ wfp', (k.u p).u_ofile ⟨minor, hlt⟩ = some wfp' → wfp' = wfp := fun _ h =>
          Option.some.inj (h.symm.trans hrow)
        split
        · rename_i hown
          refine .inl ⟨⟨EBADF, rfl⟩, fun _ wfp' hwfp hne => absurd ?_ hne⟩
          rw [hsame wfp' hwfp, hown]
        · rename_i hne
          rw [if_pos rfl]
          split
          · rename_i hmode
            refine .inl ⟨⟨EACCES, rfl⟩, fun _ wfp' hwfp _ => ?_⟩
            rw [hsame wfp' hwfp]
            exact hmode
          · rename_i hmode
            exact .inr ⟨hlt, wfp, hrow, hne, not_not.mp hmode, rfl⟩
  · have hget : k.getf p minor = none := dif_neg fun hin => hlt hin.2
    rw [hget]
    exact .inl ⟨⟨EBADF, rfl⟩, fun h => absurd h hlt⟩

theorem Allocated.failed {indx : Fin NOFILE} {fp : Fin NFILE} (h : s.Allocated p indx fp t)
    (hi : t.i_count = s.i_count) (flags : BitVec 32) (error : Error) {u_dupfd : Int}
    (hdup : u_dupfd < 0) : s.Consistent p (t.unopened p indx fp flags error u_dupfd) := by
  have hno : ¬ ((error = ENODEV ∨ error = ENXIO) ∧ 0 ≤ u_dupfd) := by omega
  unfold unopened
  dsimp only
  rw [if_neg hno]
  exact .inr ⟨error.2, h.unchanged hi⟩

/-- The end of a call that has got to `/dev/fd`. -/
theorem Allocated.duped {indx : Fin NOFILE} {fp : Fin NFILE} (h : s.Allocated p indx fp t)
    (hused : ∀ fd fp, s.rows p fd = some fp → s.k.f_count fp ≠ 0) (mode : BitVec 32) (minor : Nat) :
    s.Consistent p (t.unopened p indx fp (FFLAGS mode) ENODEV minor) ↔ s.Dupable p mode minor := by
  have hself : (t.k.u p).u_ofile indx = some fp := by rw [h.row, Function.update_self]
  have hsame : ∀ fd, fd ≠ indx → (t.k.u p).u_ofile fd = s.rows p fd := fun fd hne => by
    rw [h.row, Function.update_of_ne hne]
  unfold unopened
  dsimp only
  rw [if_pos ⟨.inl rfl, Int.natCast_nonneg minor⟩]
  rcases dupfdopen_cases (t.k.setCount fp 0) p indx minor (FFLAGS mode) with
    ⟨⟨error, heq⟩, hno⟩ | ⟨hlt, wfp, hrow, hne, hmode, heq⟩
  · rw [show dupfdopen (t.withKernel (t.k.setCount fp 0)).k p indx minor (FFLAGS mode) ENODEV = _
      from heq]
    dsimp only
    rw [if_neg error.2, if_neg (not_not.mpr rfl)]
    refine iff_of_false (not_consistent (h.rows_put rfl)) ?_
    rintro ⟨hlt, wfp, hbefore, hmode⟩
    -- an open descriptor is not the one that was allocated, nor its file the entry
    have hindx : (⟨minor, hlt⟩ : Fin NOFILE) ≠ indx := by
      intro heq
      rw [heq, h.free] at hbefore
      cases hbefore
    have hother : wfp ≠ fp := by
      rintro rfl
      exact hused _ wfp hbefore h.entry
    refine hno hlt wfp ((hsame _ hindx).trans hbefore) ?_ ?_
    · show (t.k.u p).u_ofile indx ≠ some wfp
      rw [hself]
      exact fun heq => hother (Option.some.inj heq).symm
    · show (FFLAGS mode &&& (FREAD ||| FWRITE)) ||| t.k.f_flag wfp = t.k.f_flag wfp
      rw [h.f_flag wfp hother]
      exact hmode
  · rw [show dupfdopen (t.withKernel (t.k.setCount fp 0)).k p indx minor (FFLAGS mode) ENODEV = _
      from heq]
    dsimp only
    rw [if_pos rfl, if_pos Nat.one_ne_zero]
    have hrow : (t.k.u p).u_ofile ⟨minor, hlt⟩ = some wfp := hrow
    have hother : wfp ≠ fp := by
      rintro rfl
      exact hne hself
    have hindx : (⟨minor, hlt⟩ : Fin NOFILE) ≠ indx := by
      intro heq
      rw [heq, hself] at hrow
      exact hother (Option.some.inj hrow).symm
    have hbefore : s.rows p ⟨minor, hlt⟩ = some wfp := (hsame _ hindx).symm.trans hrow
    have hmode : (FFLAGS mode &&& (FREAD ||| FWRITE)) ||| t.k.f_flag wfp = t.k.f_flag wfp := hmode
    rw [h.f_flag wfp hother] at hmode
    refine iff_of_true (.inl ⟨rfl, indx, wfp, ?_, h.free, ?_, ?_, .inl (hused _ wfp hbefore)⟩)
      ⟨hlt, wfp, hbefore, hmode⟩
    · exact congrArg User.u_rval (Kernel.u_onUser_self _ p _)
    · rw [rows_onUser]
      have hduped : ∀ change : User NFILE → User NFILE,
          Users.rows (((t.k.setCount fp 0).onUser p change).setCount wfp
            (Function.update t.k.f_count fp 0 wfp + 1)).u =
              Function.update t.rows p (change (t.k.u p)).u_ofile := fun change =>
        Kernel.rows_onUser (t.k.setCount fp 0) p change
      refine Eq.trans (congrArg₂ (fun rows row => Function.update rows p row) (hduped _)
        (congrFun (hduped _) p)) ?_
      rw [Function.update_self, Function.update_idem, h.rows, Function.update_idem]
      show Function.update s.rows p (Function.update (t.k.u p).u_ofile indx (some wfp)) = _
      rw [h.row, Function.update_idem]
    · show Function.update (Function.update t.k.f_count fp 0) wfp
        (Function.update t.k.f_count fp 0 wfp + 1) = _
      rw [h.count_zero]

variable [DecidableEq Ino]

/-- An inode is found and may be opened. -/
def Opens (s : State NFILE nproc Ino) (a : Answers Ino) (fmode : BitVec 32) : Prop :=
  ∃ ip flags, (s.lookup a fmode).1 = .ok (ip, flags) ∧ check a flags = none

/-- The call gets as far as the open routine of `/dev/fd`. -/
structure Reaches (s : State NFILE nproc Ino) (p : Fin nproc) (mode : BitVec 32) (a : Answers Ino)
    (minor : Nat) : Prop where
  allocated : (s.k.falloc p).1.isSome
  opens : s.Opens a (FFLAGS mode)
  device : a.fmt = .IFCHR ∨ a.fmt = .IFBLK
  fdopen : a.device = .fdopen minor

/-! ## References to inodes -/

@[simp] theorem irele_igrab (s : State NFILE nproc Ino) (ip : Ino) : (s.igrab ip).irele ip = s := by
  simp [igrab, irele, Function.update_idem]

theorem lookup_cases (s : State NFILE nproc Ino) (a : Answers Ino) (fmode : BitVec 32) :
    (∃ error, s.lookup a fmode = (.error error, s)) ∨
      ∃ ip flags, s.lookup a fmode = (.ok (ip, flags), s.igrab ip) := by
  unfold lookup
  split
  · split
    · exact .inl ⟨_, rfl⟩
    · dsimp only
      split
      · exact .inl ⟨_, by rw [irele_igrab]⟩
      · exact .inr ⟨_, _, by rw [irele_igrab]⟩
    · dsimp only
      split
      · exact .inl ⟨_, by rw [irele_igrab]⟩
      · exact .inr ⟨_, _, rfl⟩
  · split
    · exact .inl ⟨_, rfl⟩
    · exact .inl ⟨_, rfl⟩
    · exact .inr ⟨_, _, rfl⟩

/-- What the path leads to does not depend on the tables. -/
theorem lookup_fst (s t : State NFILE nproc Ino) (a : Answers Ino) (fmode : BitVec 32) :
    (s.lookup a fmode).1 = (t.lookup a fmode).1 := by
  unfold lookup
  split
  · split
    · rfl
    · dsimp only
      split <;> rfl
    · dsimp only
      split <;> rfl
  · split <;> rfl

/-- `vn_open` hands over a reference to the inode, or leaves none. The one error that comes with a
descriptor is that of `/dev/fd`. -/
theorem vn_open_cases (s : State NFILE nproc Ino) (a : Answers Ino) (fmode : BitVec 32)
    (u_dupfd : Int) :
    (∃ minor : Nat, s.Opens a fmode ∧ (a.fmt = .IFCHR ∨ a.fmt = .IFBLK) ∧
        a.device = .fdopen minor ∧
        s.vn_open a fmode u_dupfd = (Except.error ENODEV, (minor : Int), s)) ∨
      (∀ minor, s.Opens a fmode → (a.fmt = .IFCHR ∨ a.fmt = .IFBLK) → a.device ≠ .fdopen minor) ∧
      ((∃ error, s.vn_open a fmode u_dupfd = (Except.error error, u_dupfd, s)) ∨
        ∃ ip, s.vn_open a fmode u_dupfd = (Except.ok ip, u_dupfd, s.igrab ip)) := by
  unfold vn_open
  rcases lookup_cases s a fmode with ⟨error, hlookup⟩ | ⟨ip, flags, hlookup⟩
  · refine .inr ⟨fun minor hopens => ?_, .inl ⟨error, by rw [hlookup]⟩⟩
    obtain ⟨ip, flags, hok, -⟩ := hopens
    rw [hlookup] at hok
    cases hok
  rw [hlookup]
  dsimp only
  cases hcheck : check a flags with
  | some error =>
      refine .inr ⟨fun minor hopens => ?_, .inl ⟨error, by rw [irele_igrab]⟩⟩
      obtain ⟨ip', flags', hok, hnone⟩ := hopens
      rw [hlookup] at hok
      cases hok
      rw [hcheck] at hnone
      cases hnone
  | none =>
      have hopens : s.Opens a fmode := ⟨ip, flags, by rw [hlookup], hcheck⟩
      by_cases hdev : a.fmt = .IFCHR ∨ a.fmt = .IFBLK
      · rw [openi, if_pos hdev]
        cases hdevice : a.device with
        | opened => exact .inr ⟨fun _ _ _ => Device.noConfusion, .inr ⟨ip, rfl⟩⟩
        | failed error =>
            exact .inr ⟨fun _ _ _ => Device.noConfusion, .inl ⟨error, by dsimp only; rw [irele_igrab]⟩⟩
        | fdopen minor =>
            exact .inl ⟨minor, hopens, hdev, rfl, by dsimp only; rw [irele_igrab]⟩
        | interrupted =>
            exact .inr ⟨fun _ _ _ => Device.noConfusion, .inl ⟨EINTR, by dsimp only; rw [irele_igrab]⟩⟩
      · rw [openi, if_neg hdev]
        exact .inr ⟨fun _ _ h => absurd h hdev, .inr ⟨ip, rfl⟩⟩

/-! ## The call -/

theorem igrab_irele_count (hi : t.i_count = s.i_count) (ip : Ino) :
    ((t.igrab ip).irele ip).i_count = s.i_count := by
  rw [irele_igrab]
  exact hi

namespace Allocated

variable {indx : Fin NOFILE} {fp : Fin NFILE}

/-- The file closed again, since its lock is refused. -/
theorem refused (h : s.Allocated p indx fp t) {ip : Ino} (hi : (t.irele ip).i_count = s.i_count)
    (hdata : t.f_data fp = some ip) (error : Error) :
    s.Consistent p (error.1, (t.closef fp).withKernel
      ((t.closef fp).k.onUser p (User.put indx none))) := by
  have hone : ¬ 1 < t.k.f_count fp := by
    rw [h.f_count, Function.update_self]
    omega
  have hclosef : t.closef fp = { (t.withKernel (t.k.closef (some fp))).irele ip with
      f_data := Function.update t.f_data fp none } := by
    unfold closef
    rw [if_neg hone, hdata]
  rw [hclosef]
  refine .inr ⟨error.2, h.rows_put (Kernel.closef_u t.k (some fp)), ?_, hi⟩
  show (t.k.closef (some fp)).f_count = s.k.f_count
  unfold Kernel.closef
  dsimp only
  rw [if_neg hone]
  exact h.count_zero

/-- The end of a call that has got its inode. -/
theorem opened (h : s.Allocated p indx fp t) (hi : t.i_count = s.i_count) (flags : BitVec 32)
    (ip : Ino) : s.Consistent p ((t.igrab ip).opened p indx fp flags a ip) := by
  have hentry : s.Allocated p indx fp
      { t.igrab ip with f_data := Function.update t.f_data fp (some ip) } := h.congr rfl
  have hdata : Function.update t.f_data fp (some ip) fp = some ip := Function.update_self ..
  have hsome : (Function.update t.f_data fp (some ip) fp).isSome := by rw [hdata]; rfl
  unfold State.opened
  dsimp only
  split
  · split
    · refine Allocated.succeeded ⟨h.free, h.entry, h.rows, h.f_count, fun other hother => ?_, h.rval⟩
        hsome
      exact (Function.update_of_ne hother ..).trans (h.f_flag other hother)
    · exact hentry.refused (igrab_irele_count hi ip) hdata _
  · exact hentry.succeeded hsome

end Allocated

/-- `copen` returns 0 with a descriptor for an open file, or an error with everything as it was, if
and only if a call that gets as far as the open routine of `/dev/fd` finds a descriptor there that
was open and has the access asked for. -/
theorem copen_consistent_iff (s : State NFILE nproc Ino) (p : Fin nproc) (mode : BitVec 32)
    (a : Answers Ino) (hused : ∀ fd fp, s.rows p fd = some fp → s.k.f_count fp ≠ 0) :
    s.Consistent p (s.copen p mode a) ↔
      ∀ minor, s.Reaches p mode a minor → s.Dupable p mode minor := by
  unfold copen
  rcases falloc_cases s.k p with ⟨k, hfalloc, hrows, hcount⟩ |
    ⟨indx, fp, k, hfalloc, hfree, hentry, hrows, hcount, hflag, hrval⟩
  · rw [hfalloc]
    refine iff_of_true (.inr ⟨?_, hrows, hcount, rfl⟩) fun minor h => ?_
    · dsimp only
      split
      · exact EMFILE.2
      · exact ENFILE.2
    · have hsome := h.allocated
      rw [hfalloc] at hsome
      cases hsome
  have hentered : s.Allocated p indx fp (s.entered k fp (FFLAGS mode)) :=
    ⟨hfree, hentry, hrows, hcount, fun other hother =>
      (Function.update_of_ne hother ..).trans (congrFun hflag other), hrval⟩
  have hsome : (s.k.falloc p).1.isSome := by rw [hfalloc]; rfl
  have hopens : (s.entered k fp (FFLAGS mode)).Opens a (FFLAGS mode) ↔ s.Opens a (FFLAGS mode) := by
    unfold Opens
    rw [lookup_fst (s.entered k fp (FFLAGS mode)) s]
  rw [hfalloc]
  dsimp only
  rcases vn_open_cases (s.entered k fp (FFLAGS mode)) a (FFLAGS mode) (-indx - 1) with
    ⟨minor, hreach, hdev, hdevice, hopen⟩ | ⟨hnot, hopen⟩
  · rw [hopen]
    refine (hentered.duped hused mode minor).trans ⟨fun hdup minor' hreach' => ?_, fun hall => ?_⟩
    · rw [show minor' = minor from Device.fdopen.inj (hreach'.fdopen.symm.trans hdevice)]
      exact hdup
    · exact hall minor ⟨hsome, hopens.mp hreach, hdev, hdevice⟩
  · refine iff_of_true ?_ fun minor hreach =>
      absurd hreach.fdopen (hnot minor (hopens.mpr hreach.opens) hreach.device)
    rcases hopen with ⟨error, hopen⟩ | ⟨ip, hopen⟩
    · rw [hopen]
      exact hentered.failed rfl _ error (by omega)
    · rw [hopen]
      exact hentered.opened rfl _ ip

local instance oneNeZero : NeZero 1 := ⟨by decide⟩

/-- One process without descriptors, four entries and two inodes. -/
def booted : State 4 1 (Fin 2) := ⟨Kernel.boot 4 1 0, fun _ => none, fun _ => 0⟩

/-- The path of an ordinary file that anyone may read and write. -/
def ordinary : Answers (Fin 2) :=
  ⟨.found 0, .error EACCES, .IFREG, false, none, none, .opened, none⟩

/-- The path `/dev/fd/minor`. -/
def devfd (minor : Nat) : Answers (Fin 2) :=
  ⟨.found 1, .error EACCES, .IFCHR, false, none, none, .fdopen minor, none⟩

/-- A file is opened, and then `/dev/fd/0`. -/
theorem copen_consistent_devfd :
    ((booted.copen 0 0 ordinary).2.copen 0 0 (devfd 0)).1 = 0 ∧
      (booted.copen 0 0 ordinary).2.Consistent 0
        ((booted.copen 0 0 ordinary).2.copen 0 0 (devfd 0)) := by
  refine ⟨by decide +kernel, (copen_consistent_iff _ 0 0 (devfd 0) (by decide +kernel)).mpr ?_⟩
  intro minor hreach
  rw [← Device.fdopen.inj hreach.fdopen]
  exact ⟨by decide, 0, by decide +kernel, by decide +kernel⟩

/-- `/dev/fd/5` with descriptor 5 closed: the call returns 0 and the descriptor 0, which is closed. -/
theorem copen_without_file :
    (booted.copen 0 0 (devfd 5)).1 = 0 ∧ ((booted.copen 0 0 (devfd 5)).2.k.u 0).u_rval = 0 ∧
      (booted.copen 0 0 (devfd 5)).2.rows 0 ⟨0, by decide⟩ = none ∧
      ¬ booted.Consistent 0 (booted.copen 0 0 (devfd 5)) := by
  have hzero : (booted.copen 0 0 (devfd 5)).1 = 0 := by decide +kernel
  have hrows : (booted.copen 0 0 (devfd 5)).2.rows = booted.rows := by
    funext q fd
    revert q fd
    decide +kernel
  refine ⟨hzero, by decide +kernel, by decide +kernel, ?_⟩
  rw [show booted.copen 0 0 (devfd 5) = (0, (booted.copen 0 0 (devfd 5)).2) from
    Prod.ext hzero rfl]
  exact not_consistent hrows

end State

end DiscoBsd.File.Open
