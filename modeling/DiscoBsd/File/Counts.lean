import DiscoBsd.File.Descriptors

/-!
# Reference counts of open files

The count of an entry of the open-file table is the number of descriptors, of all processes, that
refer to it. `Sound` says so, together with what the calls need: an open descriptor is at most
`u_lastfile`, a dead process has none, and an entry whose `open` is under way has one reference. The
objects are accounted for as well: one that was attached to an entry is released when the last
reference goes, and not before.

Inside a call there may be entries that are allocated and not attached yet; `SoundBut` leaves these
out. `references_counted` is the result.
-/

namespace DiscoBsd.File

open DiscoBsd.Lib

variable {NFILE nproc : Nat}

/-- The user areas of all processes. -/
abbrev Users (NFILE nproc : Nat) := Fin nproc → User NFILE

namespace Users

/-- The descriptor tables. -/
def rows (u : Users NFILE nproc) (p : Fin nproc) : Fin NOFILE → Option (Fin NFILE) := (u p).u_ofile

/-- The number of descriptors that refer to an entry. -/
def refs (u : Users NFILE nproc) (fp : Fin NFILE) : Nat := holders u.rows fp

/-- The path of an `open` of the process is being looked up. -/
def Opens (u : Users NFILE nproc) (p : Fin nproc) (fd : Fin NOFILE) : Prop :=
  ∃ flags, (u p).opening = some (.vnode fd flags)

/-- The entry belongs to an `open` whose path is being looked up. -/
def BeingOpened (u : Users NFILE nproc) (fp : Fin NFILE) : Prop :=
  ∃ p fd, u.Opens p fd ∧ u.rows p fd = some fp

end Users

namespace Kernel

/-- References are counted, the entries in `pend` apart have their object, and objects without
references are released. -/
structure SoundBut (pend : Fin NFILE → Prop) (k : Kernel NFILE nproc) : Prop where
  count : ∀ fp, k.f_count fp = Users.refs k.u fp
  bound : ∀ p fd fp, Users.rows k.u p fd = some fp → (fd : Int) ≤ (k.u p).u_lastfile
  dead : ∀ p, (k.u p).alive = false → ∀ fd, Users.rows k.u p fd = none
  opens : ∀ p fd, Users.Opens k.u p fd →
    ∃ fp, Users.rows k.u p fd = some fp ∧ Users.refs k.u fp = 1
  free : ∀ fp, Users.refs k.u fp = 0 → k.attached fp = k.released fp
  live : ∀ fp, 0 < Users.refs k.u fp → ¬ Users.BeingOpened k.u fp → ¬ pend fp →
    k.attached fp = k.released fp + 1
  pending : ∀ fp, Users.BeingOpened k.u fp ∨ pend fp → k.attached fp = k.released fp
  once : ∀ fp, pend fp → Users.refs k.u fp = 1 ∧ ¬ Users.BeingOpened k.u fp

/-- The invariant between calls. -/
abbrev Sound (k : Kernel NFILE nproc) : Prop := k.SoundBut fun _ => False

/-! ## Changes of one user area -/

variable {k k' : Kernel NFILE nproc} {p : Fin nproc} {pend : Fin NFILE → Prop}

theorem rows_onUser (k : Kernel NFILE nproc) (p : Fin nproc) (change : User NFILE → User NFILE) :
    Users.rows (k.onUser p change).u =
      Function.update (Users.rows k.u) p (change (k.u p)).u_ofile := by
  funext q
  by_cases hq : q = p
  · subst hq
    simp [Users.rows, onUser]
  · simp [Users.rows, onUser, hq]

theorem u_onUser_self (k : Kernel NFILE nproc) (p : Fin nproc) (change : User NFILE → User NFILE) :
    (k.onUser p change).u p = change (k.u p) :=
  Function.update_self ..

theorem u_onUser_ne {q : Fin nproc} (hq : q ≠ p) (change : User NFILE → User NFILE) :
    (k.onUser p change).u q = k.u q :=
  Function.update_of_ne hq ..

theorem onUser_onUser (k : Kernel NFILE nproc) (p : Fin nproc)
    (change change' : User NFILE → User NFILE) :
    (k.onUser p change).onUser p change' = k.onUser p fun u => change' (change u) := by
  simp [onUser]

/-- The invariant does not depend on flags, return values and errors. -/
theorem SoundBut.congr (h : k.SoundBut pend) (hcount : k'.f_count = k.f_count)
    (hattached : k'.attached = k.attached) (hreleased : k'.released = k.released)
    (hofile : ∀ p, (k'.u p).u_ofile = (k.u p).u_ofile)
    (hopening : ∀ p, (k'.u p).opening = (k.u p).opening)
    (hdead : ∀ p, (k'.u p).alive = false → ∀ fd, Users.rows k.u p fd = none)
    (hlast : ∀ p fd fp, Users.rows k.u p fd = some fp → (fd : Int) ≤ (k'.u p).u_lastfile) :
    k'.SoundBut pend := by
  have hrows : Users.rows k'.u = Users.rows k.u := funext hofile
  have hopens : ∀ p fd, Users.Opens k'.u p fd ↔ Users.Opens k.u p fd := by
    intro p fd
    rw [Users.Opens, Users.Opens, hopening]
  have hbeing : ∀ fp, Users.BeingOpened k'.u fp ↔ Users.BeingOpened k.u fp := by
    intro fp
    simp only [Users.BeingOpened, hopens, hrows]
  have hrefs : Users.refs k'.u = Users.refs k.u := by
    funext fp
    rw [Users.refs, Users.refs, hrows]
  constructor
  · rw [hcount, hrefs]
    exact h.count
  · rw [hrows]
    exact hlast
  · rw [hrows]
    exact hdead
  · intro p fd hopen
    rw [hrows, hrefs]
    exact h.opens p fd ((hopens p fd).mp hopen)
  · rw [hattached, hreleased, hrefs]
    exact h.free
  · intro fp hpos hnot hpend
    rw [hattached, hreleased]
    rw [hrefs] at hpos
    exact h.live fp hpos (fun hb => hnot ((hbeing fp).mpr hb)) hpend
  · intro fp hpend
    rw [hattached, hreleased]
    exact h.pending fp (hpend.imp_left (hbeing fp).mp)
  · intro fp hpend
    rw [hrefs, hbeing]
    exact h.once fp hpend

/-- A change of the user area that leaves the descriptors alone. -/
theorem SoundBut.onUser (h : k.SoundBut pend) {change : User NFILE → User NFILE}
    (hofile : (change (k.u p)).u_ofile = (k.u p).u_ofile)
    (hopening : (change (k.u p)).opening = (k.u p).opening)
    (hdead : (change (k.u p)).alive = false → ∀ fd, Users.rows k.u p fd = none)
    (hlast : ∀ fd fp, Users.rows k.u p fd = some fp → (fd : Int) ≤ (change (k.u p)).u_lastfile) :
    (k.onUser p change).SoundBut pend := by
  have hsame : ∀ {α : Type} (field : User NFILE → α), field (change (k.u p)) = field (k.u p) →
      ∀ q, field ((k.onUser p change).u q) = field (k.u q) := by
    intro α field hfield q
    by_cases hq : q = p
    · subst hq
      rw [u_onUser_self, hfield]
    · rw [u_onUser_ne hq]
  refine h.congr rfl rfl rfl (hsame User.u_ofile hofile) (hsame User.opening hopening) ?_ ?_
  · intro q hdead' fd
    by_cases hq : q = p
    · subst hq
      rw [u_onUser_self] at hdead'
      exact hdead hdead' fd
    · rw [u_onUser_ne hq] at hdead'
      exact h.dead q hdead' fd
  · intro q fd fp hfp
    by_cases hq : q = p
    · subst hq
      rw [u_onUser_self]
      exact hlast fd fp hfp
    · rw [u_onUser_ne hq]
      exact h.bound q fd fp hfp

theorem SoundBut.setError (h : k.SoundBut pend) (p : Fin nproc) (e : Option Errno) :
    (k.onUser p fun u => { u with u_error := e }).SoundBut pend :=
  h.onUser rfl rfl (h.dead p) (h.bound p)

theorem SoundBut.error (h : k.SoundBut pend) (p : Fin nproc) (e : Errno) :
    (k.onUser p (User.error e)).SoundBut pend := h.setError p (some e)

theorem SoundBut.rval (h : k.SoundBut pend) (p : Fin nproc) (value : Int) :
    (k.onUser p (User.rval value)).SoundBut pend :=
  h.onUser rfl rfl (h.dead p) (h.bound p)

/-- A descriptor of a process that is not in the middle of an `open` refers to no entry that is being
opened. -/
theorem SoundBut.not_beingOpened (h : k.SoundBut pend) {fd : Fin NOFILE} {fp : Fin NFILE}
    (hp : ∀ fd, ¬ Users.Opens k.u p fd) (hfp : Users.rows k.u p fd = some fp) :
    ¬ Users.BeingOpened k.u fp := by
  rintro ⟨q, fd', hopen, hq⟩
  obtain ⟨fp', hfp', hone⟩ := h.opens q fd' hopen
  rw [hq] at hfp'
  cases hfp'
  obtain ⟨rfl, -⟩ := holder_unique hone hfp hq
  exact hp fd' hopen

/-! ## One descriptor -/

/-- Neither before nor after the change the process is in the lookup of an `open`. -/
structure Idle (k : Kernel NFILE nproc) (p : Fin nproc) (change : User NFILE → User NFILE) :
    Prop where
  before : ∀ fd, ¬ Users.Opens k.u p fd
  after : ∀ fd flags, (change (k.u p)).opening ≠ some (.vnode fd flags)

/-- The change leaves the process alive, or dead, as well. -/
structure Plain (k : Kernel NFILE nproc) (p : Fin nproc) (change : User NFILE → User NFILE) : Prop
    extends k.Idle p change where
  alive : (change (k.u p)).alive = (k.u p).alive

variable {change : User NFILE → User NFILE}

theorem Idle.opens (h : k.Idle p change) (q : Fin nproc) (fd : Fin NOFILE) :
    Users.Opens (k.onUser p change).u q fd ↔ Users.Opens k.u q fd := by
  by_cases hq : q = p
  · subst hq
    have hnone : ¬ Users.Opens (k.onUser q change).u q fd := by
      rintro ⟨flags, hflags⟩
      rw [u_onUser_self] at hflags
      exact h.after fd flags hflags
    exact ⟨fun hopen => absurd hopen hnone, fun hopen => absurd hopen (h.before fd)⟩
  · rw [Users.Opens, Users.Opens, u_onUser_ne hq]

theorem Idle.rows (h : k.Idle p change) {q : Fin nproc} {fd : Fin NOFILE}
    (hopen : Users.Opens k.u q fd) : Users.rows (k.onUser p change).u q = Users.rows k.u q := by
  have hq : q ≠ p := by
    rintro rfl
    exact h.before fd hopen
  rw [rows_onUser, Function.update_of_ne hq]

theorem Idle.beingOpened (h : k.Idle p change) (fp : Fin NFILE) :
    Users.BeingOpened (k.onUser p change).u fp ↔ Users.BeingOpened k.u fp := by
  constructor
  · rintro ⟨q, fd, hopen, hq⟩
    rw [h.opens] at hopen
    rw [h.rows hopen] at hq
    exact ⟨q, fd, hopen, hq⟩
  · rintro ⟨q, fd, hopen, hq⟩
    refine ⟨q, fd, (h.opens q fd).mpr hopen, ?_⟩
    rw [h.rows hopen]
    exact hq

theorem refs_put {fd : Fin NOFILE} {content : Option (Fin NFILE)}
    (hofile : (change (k.u p)).u_ofile = Function.update (k.u p).u_ofile fd content)
    (fp : Fin NFILE) :
    Users.refs (k.onUser p change).u fp + holds (Users.rows k.u p fd) fp =
      Users.refs k.u fp + holds content fp := by
  rw [Users.refs, rows_onUser, hofile]
  exact holders_put (Users.rows k.u) p fd content fp

section Put

variable {fd : Fin NOFILE} {content : Option (Fin NFILE)}
  (hofile : (change (k.u p)).u_ofile = Function.update (k.u p).u_ofile fd content)

include hofile

theorem rows_put :
    Users.rows (k.onUser p change).u p = Function.update (Users.rows k.u p) fd content := by
  rw [rows_onUser, Function.update_self, hofile]
  rfl

theorem SoundBut.bound_put (h : k.SoundBut pend)
    (hlast : ∀ other fp, Function.update (Users.rows k.u p) fd content other = some fp →
      (other : Int) ≤ (change (k.u p)).u_lastfile)
    (q : Fin nproc) (other : Fin NOFILE) (fp : Fin NFILE)
    (hfp : Users.rows (k.onUser p change).u q other = some fp) :
    (other : Int) ≤ ((k.onUser p change).u q).u_lastfile := by
  by_cases hq : q = p
  · subst hq
    rw [rows_put hofile] at hfp
    rw [u_onUser_self]
    exact hlast other fp hfp
  · rw [rows_onUser, Function.update_of_ne hq] at hfp
    rw [u_onUser_ne hq]
    exact h.bound q other fp hfp

theorem SoundBut.dead_put (h : k.SoundBut pend) (hplain : k.Plain p change)
    (hcontent : content = none ∨ (k.u p).alive = true) (q : Fin nproc)
    (hdead : ((k.onUser p change).u q).alive = false) (other : Fin NOFILE) :
    Users.rows (k.onUser p change).u q other = none := by
  by_cases hq : q = p
  · subst hq
    rw [u_onUser_self, hplain.alive] at hdead
    rw [rows_put hofile]
    rcases hcontent with rfl | halive
    · by_cases hother : other = fd
      · rw [hother, Function.update_self]
      · rw [Function.update_of_ne hother]
        exact h.dead q hdead other
    · rw [hdead] at halive
      cases halive
  · rw [u_onUser_ne hq] at hdead
    rw [rows_onUser, Function.update_of_ne hq]
    exact h.dead q hdead other

/-- The entries of other processes that are being opened are not touched. -/
theorem SoundBut.opens_put (h : k.SoundBut pend) (hplain : k.Plain p change)
    (hcontent : ∀ fp, content = some fp → ¬ Users.BeingOpened k.u fp) (q : Fin nproc)
    (other : Fin NOFILE) (hopen : Users.Opens (k.onUser p change).u q other) :
    ∃ fp, Users.rows (k.onUser p change).u q other = some fp ∧
      Users.refs (k.onUser p change).u fp = 1 := by
  rw [hplain.opens] at hopen
  obtain ⟨fp, hfp, hone⟩ := h.opens q other hopen
  have hbeing : Users.BeingOpened k.u fp := ⟨q, other, hopen, hfp⟩
  refine ⟨fp, (congrFun (hplain.rows hopen) other).trans hfp, ?_⟩
  have hbefore : holds (Users.rows k.u p fd) fp = 0 :=
    holds_ne fun heq => h.not_beingOpened hplain.before heq hbeing
  have hafter : holds content fp = 0 := holds_ne fun heq => hcontent fp heq hbeing
  have := refs_put hofile fp
  omega

end Put

theorem closef_u (k : Kernel NFILE nproc) (fp : Option (Fin NFILE)) : (k.closef fp).u = k.u := by
  cases fp with
  | none => rfl
  | some fp =>
      unfold closef
      dsimp only
      split <;> rfl

theorem closef_attached (k : Kernel NFILE nproc) (fp : Option (Fin NFILE)) :
    (k.closef fp).attached = k.attached := by
  cases fp with
  | none => rfl
  | some fp =>
      unfold closef
      dsimp only
      split <;> rfl

theorem closef_count (k : Kernel NFILE nproc) (content : Option (Fin NFILE)) (fp : Fin NFILE) :
    (k.closef content).f_count fp = k.f_count fp - holds content fp := by
  cases content with
  | none => rfl
  | some fp' =>
      unfold closef
      by_cases hfp : fp = fp'
      · subst hfp
        dsimp only
        split
        · simp [setCount]
        · simp only [setCount, Function.update_self, holds_self]
          omega
      · rw [holds_ne (by simpa using Ne.symm hfp)]
        dsimp only
        split <;> simp [setCount, hfp]

theorem closef_released (k : Kernel NFILE nproc) (content : Option (Fin NFILE)) (fp : Fin NFILE) :
    (k.closef content).released fp =
      k.released fp + if content = some fp ∧ k.f_count fp ≤ 1 then 1 else 0 := by
  cases content with
  | none => simp [closef]
  | some fp' =>
      unfold closef
      by_cases hfp : fp = fp'
      · subst hfp
        dsimp only
        split
        · rename_i hlt
          simp [setCount, Nat.not_le.mpr hlt]
        · rename_i hle
          simp [Nat.not_lt.mp hle]
      · dsimp only
        split <;> simp [setCount, hfp, Ne.symm hfp]

/-- What a descriptor referred to is closed and the descriptor is cleared. -/
theorem SoundBut.drop (h : k.Sound) (fd : Fin NOFILE) (hplain : k.Plain p change)
    (hofile : (change (k.u p)).u_ofile = Function.update (k.u p).u_ofile fd none)
    (hlast : ∀ other fp, Function.update (Users.rows k.u p) fd none other = some fp →
      (other : Int) ≤ (change (k.u p)).u_lastfile) :
    ((k.onUser p change).closef (Users.rows k.u p fd)).Sound := by
  have hrefs := refs_put (k := k) (p := p) hofile
  simp only [holds_none, Nat.add_zero] at hrefs
  have hnot : ∀ fp, Users.rows k.u p fd = some fp → ¬ Users.BeingOpened k.u fp := fun fp hfp =>
    h.not_beingOpened hplain.before hfp
  have hcount : ∀ fp, (k.onUser p change).f_count fp = Users.refs k.u fp := h.count
  constructor
  · intro fp
    rw [closef_count, closef_u, hcount, ← hrefs fp]
    omega
  · rw [closef_u]
    exact h.bound_put hofile hlast
  · rw [closef_u]
    exact h.dead_put hofile hplain (Or.inl rfl)
  · rw [closef_u]
    exact h.opens_put hofile hplain fun _ hfp => nomatch hfp
  · intro fp hzero
    rw [closef_u] at hzero
    rw [closef_attached, closef_released]
    have hsum := hrefs fp
    rw [hzero] at hsum
    by_cases hfp : Users.rows k.u p fd = some fp
    · -- the last reference releases the object
      rw [hfp, holds_self] at hsum
      rw [if_pos ⟨hfp, by rw [hcount]; omega⟩]
      exact h.live fp (by omega) (hnot fp hfp) id
    · rw [holds_ne hfp] at hsum
      rw [if_neg (fun hc => hfp hc.1)]
      exact h.free fp (by omega)
  · intro fp hpos hbeing hpend
    rw [closef_u] at hpos hbeing
    rw [hplain.beingOpened] at hbeing
    rw [closef_attached, closef_released]
    have hsum := hrefs fp
    rw [if_neg]
    · exact h.live fp (by omega) hbeing id
    · rintro ⟨hfp, hle⟩
      rw [hcount] at hle
      rw [hfp, holds_self] at hsum
      omega
  · rintro fp (hbeing | hpend)
    · rw [closef_u, hplain.beingOpened] at hbeing
      rw [closef_attached, closef_released]
      rw [if_neg (fun hc => hnot fp hc.1 hbeing)]
      exact h.pending fp (Or.inl hbeing)
    · exact hpend.elim
  · intro fp hpend
    exact hpend.elim

/-- Another reference to an entry that has its object. -/
theorem SoundBut.add (h : k.Sound) {fd : Fin NOFILE} {fp : Fin NFILE} (hplain : k.Plain p change)
    (hempty : Users.rows k.u p fd = none) (halive : (k.u p).alive = true)
    (hofile : (change (k.u p)).u_ofile = Function.update (k.u p).u_ofile fd (some fp))
    (hfp : 0 < Users.refs k.u fp) (hnot : ¬ Users.BeingOpened k.u fp)
    (hlast : ∀ other fp', Function.update (Users.rows k.u p) fd (some fp) other = some fp' →
      (other : Int) ≤ (change (k.u p)).u_lastfile) :
    ((k.onUser p change).setCount fp (k.f_count fp + 1)).Sound := by
  have hrefs := refs_put (k := k) (p := p) hofile
  simp only [hempty, holds_none, Nat.add_zero] at hrefs
  have hother : ∀ {other}, other ≠ fp → holds (some fp) other = 0 := fun hne =>
    holds_ne fun heq => hne (Option.some.inj heq).symm
  refine ⟨?_, h.bound_put hofile hlast, h.dead_put hofile hplain (Or.inr halive),
    h.opens_put hofile hplain ?_, ?_, ?_, ?_, ?_⟩
  · intro other
    show Function.update k.f_count fp (k.f_count fp + 1) other = Users.refs (k.onUser p change).u other
    rw [hrefs other]
    by_cases hne : other = fp
    · rw [hne, Function.update_self, holds_self, h.count]
    · rw [Function.update_of_ne hne, hother hne, h.count]
      rfl
  · rintro _ ⟨⟩
    exact hnot
  · intro other hzero
    replace hzero : Users.refs (k.onUser p change).u other = 0 := hzero
    have := hrefs other
    exact h.free other (by omega)
  · intro other hpos hbeing hpend
    replace hpos : 0 < Users.refs (k.onUser p change).u other := hpos
    replace hbeing : ¬ Users.BeingOpened (k.onUser p change).u other := hbeing
    rw [hplain.beingOpened] at hbeing
    refine h.live other ?_ hbeing id
    by_cases hne : other = fp
    · rw [hne]
      exact hfp
    · have := hrefs other
      rw [hother hne] at this
      omega
  · rintro other (hbeing | hpend)
    · replace hbeing : Users.BeingOpened (k.onUser p change).u other := hbeing
      rw [hplain.beingOpened] at hbeing
      exact h.pending other (Or.inl hbeing)
    · exact hpend.elim
  · intro other hpend
    exact hpend.elim

/-! ## Entries without an object -/

theorem SoundBut.of_iff (h : k.SoundBut pend) (pend' : Fin NFILE → Prop)
    (hiff : ∀ fp, pend' fp ↔ pend fp) : k.SoundBut pend' := by
  have heq : pend' = pend := funext fun fp => propext (hiff fp)
  rw [heq]
  exact h

/-- An entry is allocated. -/
theorem SoundBut.alloc (h : k.SoundBut pend) {fd : Fin NOFILE} {fp : Fin NFILE}
    (hplain : k.Plain p change) (hempty : Users.rows k.u p fd = none)
    (halive : (k.u p).alive = true)
    (hofile : (change (k.u p)).u_ofile = Function.update (k.u p).u_ofile fd (some fp))
    (hfree : Users.refs k.u fp = 0)
    (hlast : ∀ other fp', Function.update (Users.rows k.u p) fd (some fp) other = some fp' →
      (other : Int) ≤ (change (k.u p)).u_lastfile) :
    ((k.onUser p change).setCount fp 1).SoundBut fun other => other = fp ∨ pend other := by
  have hrefs := refs_put (k := k) (p := p) hofile
  simp only [hempty, holds_none, Nat.add_zero] at hrefs
  have hone := hrefs fp
  rw [hfree, holds_self] at hone
  have hother : ∀ {other}, other ≠ fp → holds (some fp) other = 0 := fun hne =>
    holds_ne fun heq => hne (Option.some.inj heq).symm
  have hnot : ¬ Users.BeingOpened k.u fp := by
    rintro ⟨q, other, -, hq⟩
    have := holders_pos hq
    rw [Users.refs] at hfree
    omega
  refine ⟨?_, h.bound_put hofile hlast, h.dead_put hofile hplain (Or.inr halive),
    h.opens_put hofile hplain ?_, ?_, ?_, ?_, ?_⟩
  · intro other
    show Function.update k.f_count fp 1 other = Users.refs (k.onUser p change).u other
    rw [hrefs other]
    by_cases hne : other = fp
    · rw [hne, Function.update_self, holds_self, hfree]
    · rw [Function.update_of_ne hne, hother hne, h.count]
      rfl
  · rintro _ ⟨⟩
    exact hnot
  · intro other hzero
    replace hzero : Users.refs (k.onUser p change).u other = 0 := hzero
    have := hrefs other
    exact h.free other (by omega)
  · intro other hpos hbeing hpend
    replace hpos : 0 < Users.refs (k.onUser p change).u other := hpos
    replace hbeing : ¬ Users.BeingOpened (k.onUser p change).u other := hbeing
    rw [hplain.beingOpened] at hbeing
    have hsum := hrefs other
    rw [hother fun heq => hpend (Or.inl heq)] at hsum
    exact h.live other (by omega) hbeing fun hin => hpend (Or.inr hin)
  · rintro other (hbeing | rfl | hpend)
    · replace hbeing : Users.BeingOpened (k.onUser p change).u other := hbeing
      rw [hplain.beingOpened] at hbeing
      exact h.pending other (Or.inl hbeing)
    · exact h.free other hfree
    · exact h.pending other (Or.inr hpend)
  · intro other hpend
    show Users.refs (k.onUser p change).u other = 1 ∧
      ¬ Users.BeingOpened (k.onUser p change).u other
    rw [hplain.beingOpened]
    by_cases hne : other = fp
    · rw [hne]
      exact ⟨hone, hnot⟩
    · have hin := h.once other (hpend.resolve_left hne)
      have hsum := hrefs other
      rw [hother hne, hin.1] at hsum
      exact ⟨hsum, hin.2⟩

/-- An entry is given up before it has an object. -/
theorem SoundBut.abandon (h : k.SoundBut pend) {fd : Fin NOFILE} {fp : Fin NFILE}
    (hplain : k.Plain p change) (hfp : Users.rows k.u p fd = some fp) (hpend : pend fp)
    (hofile : (change (k.u p)).u_ofile = Function.update (k.u p).u_ofile fd none)
    (hlast : ∀ other fp', Function.update (Users.rows k.u p) fd none other = some fp' →
      (other : Int) ≤ (change (k.u p)).u_lastfile) :
    ((k.onUser p change).setCount fp 0).SoundBut fun other => pend other ∧ other ≠ fp := by
  have hrefs := refs_put (k := k) (p := p) hofile
  simp only [hfp, holds_none, Nat.add_zero] at hrefs
  have hzero := hrefs fp
  rw [(h.once fp hpend).1, holds_self] at hzero
  have hother : ∀ {other}, other ≠ fp → holds (some fp) other = 0 := fun hne =>
    holds_ne fun heq => hne (Option.some.inj heq).symm
  refine ⟨?_, h.bound_put hofile hlast, h.dead_put hofile hplain (Or.inl rfl),
    h.opens_put hofile hplain (fun _ hnone => nomatch hnone), ?_, ?_, ?_, ?_⟩
  · intro other
    show Function.update k.f_count fp 0 other = Users.refs (k.onUser p change).u other
    have hsum := hrefs other
    by_cases hne : other = fp
    · rw [hne, Function.update_self]
      omega
    · rw [hother hne] at hsum
      rw [Function.update_of_ne hne, h.count]
      exact hsum.symm
  · intro other hnone
    replace hnone : Users.refs (k.onUser p change).u other = 0 := hnone
    by_cases hne : other = fp
    · rw [hne]
      exact h.pending fp (Or.inr hpend)
    · have hsum := hrefs other
      rw [hother hne] at hsum
      exact h.free other (by omega)
  · intro other hpos hbeing hout
    replace hpos : 0 < Users.refs (k.onUser p change).u other := hpos
    replace hbeing : ¬ Users.BeingOpened (k.onUser p change).u other := hbeing
    rw [hplain.beingOpened] at hbeing
    have hne : other ≠ fp := by
      rintro rfl
      omega
    have hsum := hrefs other
    exact h.live other (by omega) hbeing fun hin => hout ⟨hin, hne⟩
  · rintro other (hbeing | hin)
    · replace hbeing : Users.BeingOpened (k.onUser p change).u other := hbeing
      rw [hplain.beingOpened] at hbeing
      exact h.pending other (Or.inl hbeing)
    · exact h.pending other (Or.inr hin.1)
  · rintro other ⟨hin, hne⟩
    show Users.refs (k.onUser p change).u other = 1 ∧
      ¬ Users.BeingOpened (k.onUser p change).u other
    rw [hplain.beingOpened]
    have honce := h.once other hin
    have hsum := hrefs other
    rw [hother hne, honce.1] at hsum
    exact ⟨hsum, honce.2⟩

/-- An entry gets its object. -/
theorem SoundBut.attach (h : k.SoundBut pend) (fp : Fin NFILE) (hpend : pend fp) :
    { k with attached := Function.update k.attached fp (k.attached fp + 1) }.SoundBut
      fun other => pend other ∧ other ≠ fp := by
  have honce := h.once fp hpend
  have hother : ∀ {other}, other ≠ fp →
      Function.update k.attached fp (k.attached fp + 1) other = k.attached other := fun hne =>
    Function.update_of_ne hne ..
  refine ⟨h.count, h.bound, h.dead, h.opens, ?_, ?_, ?_, fun other hin => h.once other hin.1⟩
  · intro other hzero
    have hne : other ≠ fp := by
      rintro rfl
      have hone : Users.refs k.u other = 1 := honce.1
      have : Users.refs k.u other = 0 := hzero
      omega
    exact (hother hne).trans (h.free other hzero)
  · intro other hpos hbeing hout
    by_cases hne : other = fp
    · subst hne
      have := h.pending other (Or.inr hpend)
      show Function.update k.attached other (k.attached other + 1) other = k.released other + 1
      rw [Function.update_self, this]
    · exact (hother hne).trans (h.live other hpos hbeing fun hin => hout ⟨hin, hne⟩)
  · intro other hin
    have hne : other ≠ fp := by
      rintro rfl
      exact hin.elim honce.2 fun hin => hin.2 rfl
    exact (hother hne).trans (h.pending other (hin.imp_right And.left))

/-- Another stage of an `open`, for the same entries without an object. -/
theorem SoundBut.reopen (h : k.SoundBut pend) (stage : Option Opening) {pend' : Fin NFILE → Prop}
    (hsame : ∀ fp, Users.BeingOpened (k.onUser p fun u => { u with opening := stage }).u fp ∨
      pend' fp ↔ Users.BeingOpened k.u fp ∨ pend fp)
    (hopens : ∀ fd, Users.Opens (k.onUser p fun u => { u with opening := stage }).u p fd →
      ∃ fp, Users.rows k.u p fd = some fp ∧ Users.refs k.u fp = 1)
    (honce : ∀ fp, pend' fp → Users.refs k.u fp = 1 ∧
      ¬ Users.BeingOpened (k.onUser p fun u => { u with opening := stage }).u fp) :
    (k.onUser p fun u => { u with opening := stage }).SoundBut pend' := by
  have hfields : ∀ {α : Type} (field : User NFILE → α),
      field { k.u p with opening := stage } = field (k.u p) →
      ∀ q, field ((k.onUser p fun u => { u with opening := stage }).u q) = field (k.u q) := by
    intro α field hfield q
    by_cases hq : q = p
    · subst hq
      rw [u_onUser_self, hfield]
    · rw [u_onUser_ne hq]
  have hrows : Users.rows (k.onUser p fun u => { u with opening := stage }).u = Users.rows k.u :=
    funext fun q => hfields User.u_ofile rfl q
  have hrefs : ∀ fp, Users.refs (k.onUser p fun u => { u with opening := stage }).u fp =
      Users.refs k.u fp := by
    intro fp
    rw [Users.refs, hrows, Users.refs]
  constructor
  · intro fp
    rw [hrefs]
    exact h.count fp
  · intro q fd fp hfp
    rw [hrows] at hfp
    rw [hfields User.u_lastfile rfl]
    exact h.bound q fd fp hfp
  · intro q hdead
    rw [hfields User.alive rfl] at hdead
    rw [hrows]
    exact h.dead q hdead
  · intro q fd hopen
    rw [hrows]
    simp only [hrefs]
    by_cases hq : q = p
    · subst hq
      exact hopens fd hopen
    · rw [Users.Opens, u_onUser_ne hq] at hopen
      exact h.opens q fd hopen
  · intro fp hzero
    rw [hrefs] at hzero
    exact h.free fp hzero
  · intro fp hpos hnot hout
    rw [hrefs] at hpos
    have hneither := mt (hsame fp).mpr (not_or.mpr ⟨hnot, hout⟩)
    rw [not_or] at hneither
    exact h.live fp hpos hneither.1 hneither.2
  · intro fp hin
    exact h.pending fp ((hsame fp).mp hin)
  · intro fp hin
    rw [hrefs]
    exact honce fp hin

/-- The entries that are being opened, when the path of a process is looked up. -/
theorem beingOpened_lookup {indx : Fin NOFILE} {fp : Fin NFILE} (flags : BitVec 32)
    (hready : ∀ fd, ¬ Users.Opens k.u p fd) (hfp : Users.rows k.u p indx = some fp)
    (other : Fin NFILE) :
    Users.BeingOpened (k.onUser p fun u => { u with opening := some (.vnode indx flags) }).u other ↔
      Users.BeingOpened k.u other ∨ other = fp := by
  have hrows : Users.rows (k.onUser p fun u => { u with opening := some (.vnode indx flags) }).u =
      Users.rows k.u := by
    rw [rows_onUser]
    exact Function.update_eq_self p (Users.rows k.u)
  rw [Users.BeingOpened, hrows]
  constructor
  · rintro ⟨q, fd, hopen, hq⟩
    by_cases hqp : q = p
    · subst hqp
      obtain ⟨_, heq⟩ := hopen
      rw [u_onUser_self] at heq
      cases heq
      rw [hfp] at hq
      exact Or.inr (Option.some.inj hq).symm
    · rw [Users.Opens, u_onUser_ne hqp] at hopen
      exact Or.inl ⟨q, fd, hopen, hq⟩
  · rintro (⟨q, fd, hopen, hq⟩ | rfl)
    · have hqp : q ≠ p := by
        rintro rfl
        exact hready fd hopen
      refine ⟨q, fd, ?_, hq⟩
      rw [Users.Opens, u_onUser_ne hqp]
      exact hopen
    · exact ⟨p, indx, ⟨flags, by rw [u_onUser_self]⟩, hfp⟩

/-- The lookup of a path begins. -/
theorem SoundBut.lookup {indx : Fin NOFILE} {fp : Fin NFILE} (flags : BitVec 32)
    (h : k.SoundBut fun other => other = fp) (hready : ∀ fd, ¬ Users.Opens k.u p fd)
    (hfp : Users.rows k.u p indx = some fp) :
    (k.onUser p fun u => { u with opening := some (.vnode indx flags) }).Sound := by
  refine h.reopen _ ?_ ?_ (fun _ hpend => hpend.elim)
  · intro other
    rw [or_false]
    exact beingOpened_lookup flags hready hfp other
  · rintro fd ⟨_, heq⟩
    rw [u_onUser_self] at heq
    cases heq
    exact ⟨fp, hfp, (h.once fp rfl).1⟩

/-- The lookup of a path ends. -/
theorem SoundBut.looked {indx : Fin NOFILE} {fp : Fin NFILE} {flags : BitVec 32} (h : k.Sound)
    (hopening : (k.u p).opening = some (.vnode indx flags))
    (hfp : Users.rows k.u p indx = some fp) (stage : Option Opening)
    (hstage : ∀ fd flags, stage ≠ some (.vnode fd flags)) :
    (k.onUser p fun u => { u with opening := stage }).SoundBut fun other => other = fp := by
  have hnone : ∀ fd, ¬ Users.Opens (k.onUser p fun u => { u with opening := stage }).u p fd := by
    rintro fd ⟨flags', heq⟩
    rw [u_onUser_self] at heq
    exact hstage fd flags' heq
  have hrows : Users.rows (k.onUser p fun u => { u with opening := stage }).u = Users.rows k.u := by
    rw [rows_onUser]
    exact Function.update_eq_self p (Users.rows k.u)
  have hone : Users.refs k.u fp = 1 := by
    obtain ⟨other, hother, hone⟩ := h.opens p indx ⟨flags, hopening⟩
    rw [hfp] at hother
    cases hother
    exact hone
  refine h.reopen stage ?_ (fun fd hopen => absurd hopen (hnone fd)) ?_
  · intro other
    -- the lookup that begins again leads back to the state before
    have hback := beingOpened_lookup flags hnone (hrows ▸ hfp) other
    rw [onUser_onUser, ← hopening] at hback
    have hsame : (k.onUser p fun u => { u with opening := (k.u p).opening }).u = k.u :=
      Function.update_eq_self ..
    rw [hsame] at hback
    rw [or_false]
    exact hback.symm
  · rintro _ rfl
    refine ⟨hone, ?_⟩
    rintro ⟨q, fd, hopen, hq⟩
    rw [hrows] at hq
    obtain ⟨rfl, -⟩ := holder_unique hone hfp hq
    exact hnone fd hopen

end Kernel

end DiscoBsd.File
