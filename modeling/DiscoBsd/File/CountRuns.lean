import DiscoBsd.File.Counts
import Mathlib.Algebra.BigOperators.Fin

/-!
# The system calls count references

Every call on descriptors keeps the invariant of the open-file table, and so does every run of calls
by any number of processes. The calls close with `SoundBut.drop`, refer again with `SoundBut.add`, and
allocate with `SoundBut.alloc`; the rest is the bookkeeping of `u_lastfile`.
-/

namespace DiscoBsd.File

open DiscoBsd.Lib

variable {NFILE nproc : Nat}

/-- An open descriptor below `n` is at most the largest one below `n`. -/
theorem le_lower {u_ofile : Fin NOFILE → Option (Fin NFILE)} {fd : Fin NOFILE} {fp : Fin NFILE}
    (hfp : u_ofile fd = some fp) {n : Nat} (hfd : fd.val < n) : (fd : Int) ≤ lower u_ofile n := by
  induction n with
  | zero => exact absurd hfd (Nat.not_lt_zero _)
  | succ n ih =>
      have hrec : fd.val ≠ n → (fd : Int) ≤ lower u_ofile n := fun hne => ih (by omega)
      rw [lower]
      split
      · split
        · rename_i hn hnone
          refine hrec ?_
          rintro rfl
          rw [hfp] at hnone
          cases hnone
        · omega
      · rename_i hn
        refine hrec ?_
        have := fd.isLt
        omega

namespace User

theorem le_raiseLastfile (u : User NFILE) (fd : Fin NOFILE) :
    u.u_lastfile ≤ (u.raiseLastfile fd).u_lastfile := by
  simp only [raiseLastfile]
  split <;> omega

theorem raiseLastfile_le (u : User NFILE) (fd : Fin NOFILE) :
    (fd : Int) ≤ (u.raiseLastfile fd).u_lastfile := by
  simp only [raiseLastfile]
  split <;> omega

theorem mem_descriptors (u : User NFILE) (fd : Fin NOFILE) :
    fd ∈ u.descriptors ↔ (fd : Int) ≤ u.u_lastfile := by
  simp [descriptors]

end User

namespace Kernel

variable {k : Kernel NFILE nproc} {p : Fin nproc} {change : User NFILE → User NFILE}
  {pend : Fin NFILE → Prop}

/-- The process runs and is not in the middle of an `open`. -/
structure Ready (k : Kernel NFILE nproc) (p : Fin nproc) : Prop where
  alive : (k.u p).alive = true
  opening : (k.u p).opening = none

theorem Ready.of_bool (h : (k.u p).ready = true) : k.Ready p := by
  rw [User.ready, Bool.and_eq_true, Option.isNone_iff_eq_none] at h
  exact ⟨h.1, h.2⟩

theorem Ready.not_opens (h : k.Ready p) (fd : Fin NOFILE) : ¬ Users.Opens k.u p fd := by
  rintro ⟨flags, hopening⟩
  rw [h.opening] at hopening
  cases hopening

theorem Ready.plain (h : k.Ready p) (change : User NFILE → User NFILE)
    (hopening : (change (k.u p)).opening = (k.u p).opening)
    (halive : (change (k.u p)).alive = (k.u p).alive) : k.Plain p change where
  before := h.not_opens
  after fd flags := by
    rw [hopening, h.opening]
    exact fun hnone => nomatch hnone
  alive := halive

theorem Ready.onUser (h : k.Ready p) (change : User NFILE → User NFILE)
    (hopening : (change (k.u p)).opening = (k.u p).opening)
    (halive : (change (k.u p)).alive = (k.u p).alive) : (k.onUser p change).Ready p := by
  constructor
  · rw [u_onUser_self, halive, h.alive]
  · rw [u_onUser_self, hopening, h.opening]

theorem Ready.closef (h : k.Ready p) (content : Option (Fin NFILE)) : (k.closef content).Ready p := by
  constructor
  · rw [closef_u, h.alive]
  · rw [closef_u, h.opening]

/-- Closing an entry does not look at the user areas. -/
theorem closef_onUser (k : Kernel NFILE nproc) (content : Option (Fin NFILE)) (p : Fin nproc)
    (change : User NFILE → User NFILE) :
    (k.closef content).onUser p change = (k.onUser p change).closef content := by
  cases content with
  | none => rfl
  | some fp =>
      unfold Kernel.closef
      dsimp only
      show Kernel.onUser (if 1 < k.f_count fp then _ else _) p change =
        if 1 < k.f_count fp then _ else _
      split <;> rfl

theorem getf_some {i : Int} {fd : Fin NOFILE} {fp : Fin NFILE} (h : k.getf p i = some (fd, fp)) :
    Users.rows k.u p fd = some fp ∧ (fd : Int) = i := by
  unfold getf at h
  split at h
  · rename_i hi
    obtain ⟨_, hfp, heq⟩ := Option.map_eq_some_iff.mp h
    cases heq
    exact ⟨hfp, Int.toNat_of_nonneg hi.1⟩
  · cases h

/-! ## Allocation -/

/-- `ufalloc` reports a full table, or finds an empty descriptor. -/
theorem ufalloc_cases (k : Kernel NFILE nproc) (p : Fin nproc) (i : Nat) :
    k.ufalloc p i = (none, k.onUser p (User.error .emfile)) ∨
    ∃ fd : Fin NOFILE, Users.rows k.u p fd = none ∧ k.ufalloc p i =
      (some fd, k.onUser p fun u => ((u.rval fd).setFlags fd 0).raiseLastfile fd) := by
  unfold ufalloc
  split
  · exact Or.inl rfl
  · rename_i fd hfind
    have hfree := List.find?_some hfind
    rw [Bool.and_eq_true, Option.isNone_iff_eq_none] at hfree
    exact Or.inr ⟨fd, hfree.2, rfl⟩

theorem SoundBut.ufalloc (h : k.SoundBut pend) (p : Fin nproc) (fd : Fin NOFILE) :
    (k.onUser p fun u => ((u.rval fd).setFlags fd 0).raiseLastfile fd).SoundBut pend := by
  refine h.onUser rfl rfl (h.dead p) fun other fp hfp => ?_
  exact le_trans (h.bound p other fp hfp) (User.le_raiseLastfile _ fd)

theorem findFile_free {fp : Fin NFILE} (h : k.findFile = some fp) : k.f_count fp = 0 := by
  have hfree : fp ∈ (List.finRange NFILE).filter fun fp => decide (k.f_count fp = 0) := by
    unfold findFile at h
    dsimp only at h
    split at h
    · rename_i found hfind
      cases h
      exact List.mem_of_find?_eq_some hfind
    · exact List.mem_of_find?_eq_some h
  exact of_decide_eq_true (List.mem_filter.mp hfree).2

/-- `falloc` fails, or allocates a descriptor and an entry without an object. -/
theorem SoundBut.falloc (h : k.SoundBut pend) (hready : k.Ready p) :
    (∃ k', k.falloc p = (none, k') ∧ k'.SoundBut pend ∧ k'.Ready p ∧ Users.rows k'.u = Users.rows k.u) ∨
    ∃ i fp k', k.falloc p = (some (i, fp), k') ∧
      k'.SoundBut (fun other => other = fp ∨ pend other) ∧ k'.Ready p ∧
      Users.rows k.u p i = none ∧ Users.rows k'.u p = Function.update (Users.rows k.u p) i (some fp) ∧
      Users.refs k.u fp = 0 := by
  rcases ufalloc_cases k p 0 with hfull | ⟨fd, hempty, hfound⟩
  · refine Or.inl ⟨_, by rw [Kernel.falloc, hfull], h.error p .emfile, hready.onUser _ rfl rfl, ?_⟩
    rw [rows_onUser]
    exact Function.update_eq_self p (Users.rows k.u)
  have hsound := h.ufalloc p fd
  have hready' : (k.onUser p fun u => ((u.rval fd).setFlags fd 0).raiseLastfile fd).Ready p :=
    hready.onUser _ rfl rfl
  have hrows : Users.rows (k.onUser p fun u => ((u.rval fd).setFlags fd 0).raiseLastfile fd).u =
      Users.rows k.u := by
    rw [rows_onUser]
    exact Function.update_eq_self p (Users.rows k.u)
  have hraised : (fd : Int) ≤
      ((k.onUser p fun u => ((u.rval fd).setFlags fd 0).raiseLastfile fd).u p).u_lastfile := by
    rw [u_onUser_self]
    exact User.raiseLastfile_le _ fd
  have hrefs : Users.refs k.u = Users.refs
      (k.onUser p fun u => ((u.rval fd).setFlags fd 0).raiseLastfile fd).u := by
    funext fp
    rw [Users.refs, Users.refs, hrows]
  rw [← hrows] at hempty ⊢
  rw [hrefs]
  unfold Kernel.falloc
  rw [hfound]
  dsimp only
  generalize (k.onUser p fun u => ((u.rval fd).setFlags fd 0).raiseLastfile fd) = k' at *
  cases hfile : k'.findFile with
  | none =>
      refine Or.inl ⟨_, rfl, hsound.error p .enfile, hready'.onUser _ rfl rfl, ?_⟩
      rw [rows_onUser]
      exact Function.update_eq_self p (Users.rows k'.u)
  | some fp =>
      have hfree : Users.refs k'.u fp = 0 := (hsound.count fp).symm.trans (findFile_free hfile)
      refine Or.inr ⟨fd, fp, _, rfl, ?_, ⟨?_, ?_⟩, hempty, rows_put rfl, hfree⟩
      · have halloc := hsound.alloc (hready'.plain (User.put fd (some fp)) rfl rfl) hempty
          hready'.alive rfl hfree ?_
        · exact halloc.congr rfl rfl rfl (fun _ => rfl) (fun _ => rfl) halloc.dead halloc.bound
        · intro other fp' hfp'
          by_cases hother : other = fd
          · rw [hother]
            exact hraised
          · rw [Function.update_of_ne hother] at hfp'
            exact hsound.bound p other fp' hfp'
      · exact (hready'.onUser (User.put fd (some fp)) rfl rfl).alive
      · exact (hready'.onUser (User.put fd (some fp)) rfl rfl).opening

/-! ## Duplication -/

/-- An empty descriptor refers to what another one refers to. -/
theorem SoundBut.dupit (h : k.Sound) (hready : k.Ready p) {fd target : Fin NOFILE} {fp : Fin NFILE}
    (hfp : Users.rows k.u p fd = some fp) (hempty : Users.rows k.u p target = none)
    (flags : BitVec 8) : (k.dupit p target fp flags).Sound := by
  refine h.add (hready.plain _ rfl rfl) hempty hready.alive rfl (holders_pos hfp)
    (h.not_beingOpened hready.not_opens hfp) fun other fp' hfp' => ?_
  by_cases hother : other = target
  · rw [hother]
    exact User.raiseLastfile_le _ target
  · rw [Function.update_of_ne hother] at hfp'
    exact le_trans (h.bound p other fp' hfp') (User.le_raiseLastfile _ target)

/-- The first free descriptor refers to what another one refers to. -/
theorem SoundBut.dup_free (h : k.Sound) (hready : k.Ready p) {fd : Fin NOFILE} {fp : Fin NFILE}
    (hfp : Users.rows k.u p fd = some fp) (i : Nat) (flags : Kernel NFILE nproc → BitVec 8) :
    (match k.ufalloc p i with
      | (none, k) => k
      | (some target, k) => k.dupit p target fp (flags k) : Kernel NFILE nproc).Sound := by
  rcases ufalloc_cases k p i with hfull | ⟨target, hempty, hfound⟩
  · rw [hfull]
    exact h.error p .emfile
  · rw [hfound]
    have hrows :
        Users.rows (k.onUser p fun u => ((u.rval target).setFlags target 0).raiseLastfile target).u =
          Users.rows k.u := by
      rw [rows_onUser]
      exact Function.update_eq_self p (Users.rows k.u)
    exact (h.ufalloc p target).dupit (hready.onUser _ rfl rfl) (hrows ▸ hfp) (hrows ▸ hempty) _

theorem dupit_put (k : Kernel NFILE nproc) (p : Fin nproc) (target : Fin NOFILE) (fp : Fin NFILE)
    (flags : BitVec 8) :
    (k.onUser p (User.put target none)).dupit p target fp flags = k.dupit p target fp flags := by
  have hput : ∀ u : User NFILE, (u.put target none).put target (some fp) = u.put target (some fp) := by
    intro u
    simp [User.put]
  simp only [Kernel.dupit, onUser_onUser, hput]
  rfl

theorem SoundBut.dup2 (h : k.Sound) (hready : k.Ready p) (i j : Int) : (k.dup2 p i j).Sound := by
  unfold Kernel.dup2
  cases hget : k.getf p i with
  | none => exact h.error p .ebadf
  | some found =>
      obtain ⟨fd, fp⟩ := found
      obtain ⟨hfp, hfd⟩ := getf_some hget
      dsimp only
      split
      · rename_i hj
        split
        · exact h.rval p j
        · rename_i hne
          have htarget : fd ≠ ⟨j.toNat, hj.2⟩ := by
            rintro rfl
            refine hne (hfd.symm.trans ?_)
            exact Int.toNat_of_nonneg hj.1
          generalize (⟨j.toNat, hj.2⟩ : Fin NOFILE) = target at htarget
          have hsound := h.rval p j
          have hready' : (k.onUser p (User.rval j)).Ready p := hready.onUser _ rfl rfl
          have hfp' : Users.rows (k.onUser p (User.rval j)).u p fd = some fp := by
            rw [rows_onUser, Function.update_self]
            exact hfp
          generalize k.onUser p (User.rval j) = k at hsound hready' hfp'
          -- the target is cleared, and then refers to the entry
          have hdrop := hsound.drop target
            (hready'.plain (User.put target none) rfl rfl) rfl fun other fp hother => by
              by_cases hne : other = target
              · rw [hne, Function.update_self] at hother
                cases hother
              · rw [Function.update_of_ne hne] at hother
                exact hsound.bound p other fp hother
          have hstill : Users.rows ((k.onUser p (User.put target none)).closef
              (Users.rows k.u p target)).u p fd = some fp := by
            rw [closef_u, rows_put rfl, Function.update_of_ne htarget]
            exact hfp'
          have hcleared : Users.rows ((k.onUser p (User.put target none)).closef
              (Users.rows k.u p target)).u p target = none := by
            rw [closef_u, rows_put rfl, Function.update_self]
          have hready'' := (hready'.onUser (User.put target none) rfl rfl).closef
            (Users.rows k.u p target)
          have hadd := fun flags => hdrop.dupit hready'' hstill hcleared flags
          rw [← closef_onUser] at hadd
          simp only [dupit_put] at hadd
          exact hadd _
      · exact h.error p .ebadf

theorem SoundBut.dup (h : k.Sound) (hready : k.Ready p) (i j : Int) : (k.dup p i j).Sound := by
  unfold Kernel.dup
  split
  · exact h.dup2 hready _ j
  · cases hget : k.getf p i with
    | none => exact h.error p .ebadf
    | some found =>
        exact h.dup_free hready (getf_some hget).1 0 fun k => (k.u p).u_pofile found.1 &&& ~~~UF_EXCLOSE

theorem SoundBut.fcntl (h : k.Sound) (hready : k.Ready p) (fdes : Int) (cmd : Fcntl) :
    (k.fcntl p fdes cmd).Sound := by
  unfold Kernel.fcntl
  cases hget : k.getf p fdes with
  | none => exact h.error p .ebadf
  | some found =>
      obtain ⟨fd, fp⟩ := found
      cases cmd with
      | F_DUPFD arg =>
          dsimp only
          split
          · exact h.error p .einval
          · exact h.dup_free hready (getf_some hget).1 arg.toNat
              fun k => (k.u p).u_pofile fd &&& ~~~UF_EXCLOSE
      | F_GETFD => exact h.onUser rfl rfl (h.dead p) (h.bound p)
      | F_SETFD arg => exact h.onUser rfl rfl (h.dead p) (h.bound p)

/-! ## Closing -/

theorem SoundBut.close (h : k.Sound) (hready : k.Ready p) (i : Int) : (k.close p i).Sound := by
  unfold Kernel.close
  cases hget : k.getf p i with
  | none => exact h.error p .ebadf
  | some found =>
      obtain ⟨fd, fp⟩ := found
      have hfp := (getf_some hget).1
      have hdrop := h.drop fd
        (hready.plain (fun u => (u.put fd none).lowerLastfile) rfl rfl) rfl ?_
      · rw [hfp] at hdrop
        exact hdrop
      · intro other fp' hother
        have hopen : Function.update (k.u p).u_ofile fd none other = some fp' := hother
        refine le_lower hopen ?_
        show other.val < ((k.u p).u_lastfile + 1).toNat
        by_cases hne : other = fd
        · rw [hne, Function.update_self] at hother
          cases hother
        · rw [Function.update_of_ne hne] at hother
          have := h.bound p other fp' hother
          omega

theorem execClose_step (h : k.Sound) (hready : k.Ready p) (cc : Fin NOFILE) :
    (execClose p k cc).Sound ∧ (execClose p k cc).Ready p := by
  unfold execClose
  split
  · rw [closef_onUser]
    refine ⟨h.drop _ (hready.plain _ rfl rfl) rfl ?_, (hready.onUser _ rfl rfl).closef _⟩
    intro other fp hother
    by_cases hne : other = cc
    · rw [hne, Function.update_self] at hother
      cases hother
    · rw [Function.update_of_ne hne] at hother
      exact h.bound p other fp hother
  · exact ⟨h, hready⟩

theorem SoundBut.execve (h : k.Sound) (hready : k.Ready p) : (k.execve p).Sound := by
  have hfold : ∀ (ccs : List (Fin NOFILE)) (k : Kernel NFILE nproc), k.Sound → k.Ready p →
      (ccs.foldl (execClose p) k).Sound := by
    intro ccs
    induction ccs with
    | nil => exact fun _ h _ => h
    | cons cc ccs ih =>
        intro k h hready
        have hstep := execClose_step h hready cc
        exact ih _ hstep.1 hstep.2
  unfold Kernel.execve
  have hswept := hfold (k.u p).descriptors k h hready
  refine hswept.onUser rfl rfl (hswept.dead p) fun fd fp hfp => ?_
  have hbound := hswept.bound p fd fp hfp
  exact le_lower hfp (by omega)

/-- One step of the sweep of `exit` clears its descriptor and no other. -/
theorem exitClose_step (h : k.Sound) (hready : k.Ready p) (i : Fin NOFILE) :
    (exitClose p k i).Sound ∧ (exitClose p k i).Ready p ∧
      Users.rows (exitClose p k i).u p = Function.update (Users.rows k.u p) i none := by
  unfold exitClose
  refine ⟨h.drop _ (hready.plain _ rfl rfl) rfl ?_, (hready.onUser _ rfl rfl).closef _, ?_⟩
  · intro other fp hother
    by_cases hne : other = i
    · rw [hne, Function.update_self] at hother
      cases hother
    · rw [Function.update_of_ne hne] at hother
      exact h.bound p other fp hother
  · rw [closef_u, rows_put rfl]

theorem SoundBut.exit (h : k.Sound) (hready : k.Ready p) : (k.exit p).Sound := by
  have hfold : ∀ (fds : List (Fin NOFILE)) (k : Kernel NFILE nproc), k.Sound → k.Ready p →
      (fds.foldl (exitClose p) k).Sound ∧
      ∀ fd, Users.rows k.u p fd = none ∨ fd ∈ fds →
        Users.rows (fds.foldl (exitClose p) k).u p fd = none := by
    intro fds
    induction fds with
    | nil => exact fun _ h _ => ⟨h, fun _ hfd => hfd.resolve_right List.not_mem_nil⟩
    | cons i fds ih =>
        intro k h hready
        obtain ⟨hsound, hready', hrows⟩ := exitClose_step h hready i
        obtain ⟨hswept, hcleared⟩ := ih _ hsound hready'
        refine ⟨hswept, fun fd hfd => hcleared fd ?_⟩
        rw [hrows]
        by_cases hi : fd = i
        · rw [hi, Function.update_self]
          exact Or.inl rfl
        · rw [Function.update_of_ne hi]
          exact hfd.imp_right fun hmem => (List.mem_cons.mp hmem).resolve_left hi
  unfold Kernel.exit
  obtain ⟨hswept, hcleared⟩ := hfold (k.u p).descriptors k h hready
  refine hswept.onUser rfl rfl (fun _ fd => hcleared fd ?_) (hswept.bound p)
  cases hfd : Users.rows k.u p fd with
  | none => exact Or.inl rfl
  | some fp => exact Or.inr ((User.mem_descriptors _ fd).mpr (h.bound p fd fp hfd))

/-! ## Opening -/

theorem SoundBut.copen (h : k.Sound) (hready : k.Ready p) (flags : BitVec 32) :
    (k.copen p flags).Sound := by
  rcases h.falloc hready with ⟨k', heq, hsound, -, -⟩ | ⟨i, fp, k', heq, hsound, hready', -, hrows, -⟩
  · rw [Kernel.copen, heq]
    exact hsound
  · rw [Kernel.copen, heq]
    have hpend := hsound.of_iff (fun other => other = fp) fun _ => (or_false _).symm ▸ Iff.rfl
    have hfp : Users.rows k'.u p i = some fp := by
      rw [hrows, Function.update_self]
    have hlookup := hpend.lookup flags hready'.not_opens hfp
    exact hlookup.congr rfl rfl rfl (fun _ => rfl) (fun _ => rfl) hlookup.dead hlookup.bound

/-- The descriptor of a failed `open` is cleared. -/
theorem SoundBut.abandoned (h : k.SoundBut pend) (hready : k.Ready p) {fd : Fin NOFILE}
    {fp : Fin NFILE} (hfp : Users.rows k.u p fd = some fp) (hpend : pend fp) :
    ((k.onUser p (User.put fd none)).setCount fp 0).SoundBut fun other => pend other ∧ other ≠ fp := by
  refine h.abandon (hready.plain _ rfl rfl) hfp hpend rfl fun other fp' hother => ?_
  by_cases hne : other = fd
  · rw [hne, Function.update_self] at hother
    cases hother
  · rw [Function.update_of_ne hne] at hother
    exact h.bound p other fp' hother

/-- `dupfdopen` fails and changes nothing, or refers to the entry of another descriptor. -/
theorem dupfdopen_cases (k : Kernel NFILE nproc) (p : Fin nproc) (indx : Fin NOFILE) (dfd : Int)
    (mode : BitVec 32) (error : Errno) :
    (∃ error', k.dupfdopen p indx dfd mode error = (some error', k)) ∨
    ∃ fd wfp, Users.rows k.u p fd = some wfp ∧ Users.rows k.u p indx ≠ some wfp ∧
      k.dupfdopen p indx dfd mode error = (none, (k.onUser p fun u =>
        ((u.put indx (some wfp)).setFlags indx (u.u_pofile fd)).raiseLastfile indx).setCount wfp
          (k.f_count wfp + 1)) := by
  unfold dupfdopen
  cases hget : k.getf p dfd with
  | none => exact Or.inl ⟨_, rfl⟩
  | some found =>
      obtain ⟨fd, wfp⟩ := found
      dsimp only
      split
      · exact Or.inl ⟨_, rfl⟩
      · rename_i hother
        split
        · split
          · exact Or.inl ⟨_, rfl⟩
          · exact Or.inr ⟨fd, wfp, (getf_some hget).1, hother, rfl⟩
        · exact Or.inl ⟨_, rfl⟩

theorem SoundBut.vnOpened (h : k.Sound) (halive : (k.u p).alive = true) {indx : Fin NOFILE}
    {fp : Fin NFILE} {flags : BitVec 32} (hopening : (k.u p).opening = some (.vnode indx flags))
    (hfp : Users.rows k.u p indx = some fp) (result : Lookup) :
    (k.vnOpened p indx fp flags result).Sound := by
  cases result with
  | found =>
      have hlooked := fun stage (hstage : ∀ fd flags, stage ≠ some (Opening.vnode fd flags)) =>
        (h.looked hopening hfp stage hstage).attach fp rfl
      unfold Kernel.vnOpened
      dsimp only
      split
      · refine (hlooked (some (.lock indx)) ?_).of_iff _ fun other => ?_
        · rintro _ _ ⟨⟩
        · exact ⟨False.elim, fun hin => hin.2 hin.1⟩
      · refine (hlooked none ?_).of_iff _ fun other => ?_
        · rintro _ _ ⟨⟩
        · exact ⟨False.elim, fun hin => hin.2 hin.1⟩
  | failed error u_dupfd =>
      -- the entry is given up as if the call had ended before
      have hended := h.looked hopening hfp none fun _ _ hnone => nomatch hnone
      have hready : (k.onUser p fun u => { u with opening := none }).Ready p :=
        ⟨by rw [u_onUser_self]; exact halive, by rw [u_onUser_self]⟩
      have hrows : Users.rows (k.onUser p fun u => { u with opening := none }).u =
          Users.rows k.u := by
        rw [rows_onUser]
        exact Function.update_eq_self p (Users.rows k.u)
      have hclosed := (hended.abandoned hready (hrows ▸ hfp) rfl).of_iff
        (fun _ => False) fun other => ⟨False.elim, fun hin => hin.2 hin.1⟩
      have hready' : (((k.onUser p fun u => { u with opening := none }).onUser p
          (User.put indx none)).setCount fp 0).Ready p := by
        have := hready.onUser (User.put indx none) rfl rfl
        exact ⟨this.alive, this.opening⟩
      have hfail : ∀ error, ((k.setCount fp 0).onUser p fun u =>
          { u.put indx none with u_error := error, opening := none }).Sound := by
        intro error
        have herror := hclosed.setError p error
        have heq : (((k.onUser p fun u => { u with opening := none }).onUser p
            (User.put indx none)).setCount fp 0).onUser p (fun u => { u with u_error := error }) =
            (k.setCount fp 0).onUser p fun u =>
              { u.put indx none with u_error := error, opening := none } := by
          simp only [Kernel.onUser, setCount, Function.update_self, Function.update_idem]
          rfl
        rw [heq] at herror
        exact herror
      unfold Kernel.vnOpened
      dsimp only
      split
      · rcases dupfdopen_cases (k.setCount fp 0) p indx u_dupfd flags error with
          ⟨error', heq⟩ | ⟨fd, wfp, hwfp, hne, heq⟩
        · rw [heq]
          exact hfail none
        · rw [heq]
          replace hwfp : Users.rows k.u p fd = some wfp := hwfp
          have hfd : fd ≠ indx := by
            rintro rfl
            exact hne hwfp
          have hwne : wfp ≠ fp := by
            rintro rfl
            exact hne hfp
          have hholds : Users.rows (((k.onUser p fun u => { u with opening := none }).onUser p
              (User.put indx none)).setCount fp 0).u p fd = some wfp := by
            show Users.rows ((k.onUser p fun u => { u with opening := none }).onUser p
              (User.put indx none)).u p fd = some wfp
            rw [rows_put rfl, Function.update_of_ne hfd, hrows]
            exact hwfp
          have hempty : Users.rows (((k.onUser p fun u => { u with opening := none }).onUser p
              (User.put indx none)).setCount fp 0).u p indx = none := by
            show Users.rows ((k.onUser p fun u => { u with opening := none }).onUser p
              (User.put indx none)).u p indx = none
            rw [rows_put rfl, Function.update_self]
          have hdup := (hclosed.dupit hready' hholds hempty ((k.u p).u_pofile fd)).rval p indx
          have hsame : ((((k.onUser p fun u => { u with opening := none }).onUser p
              (User.put indx none)).setCount fp 0).dupit p indx wfp ((k.u p).u_pofile fd)).onUser p
                (User.rval indx) =
              (((k.setCount fp 0).onUser p fun u =>
                ((u.put indx (some wfp)).setFlags indx (u.u_pofile fd)).raiseLastfile indx).setCount
                  wfp ((k.setCount fp 0).f_count wfp + 1)).onUser p
                fun u => { u.rval indx with opening := none } := by
            simp only [Kernel.dupit, Kernel.onUser, setCount, Function.update_self,
              Function.update_idem, User.put]
            rfl
          rw [hsame] at hdup
          exact hdup
      · exact hfail (some error)

theorem SoundBut.locked (h : k.Sound) {indx : Fin NOFILE}
    (hopening : (k.u p).opening = some (.lock indx)) (error : Option Errno) :
    (k.locked p indx error).Sound := by
  have hnot : ∀ fd, ¬ Users.Opens k.u p fd := by
    rintro fd ⟨flags, heq⟩
    rw [hopening] at heq
    cases heq
  have hplain : ∀ change : User NFILE → User NFILE, (change (k.u p)).opening = none →
      (change (k.u p)).alive = (k.u p).alive → k.Plain p change := fun _ hnone halive =>
    ⟨⟨hnot, fun _ _ => hnone ▸ fun heq => (nomatch heq)⟩, halive⟩
  cases error with
  | none =>
      refine h.reopen none ?_ ?_ (fun _ hpend => hpend.elim)
      · intro fp
        rw [or_false, or_false]
        exact (hplain (fun u => { u with opening := none }) rfl rfl).beingOpened fp
      · rintro fd ⟨flags, heq⟩
        rw [u_onUser_self] at heq
        cases heq
  | some error =>
      unfold Kernel.locked
      dsimp only
      rw [closef_onUser]
      refine h.drop _ (hplain _ rfl rfl) rfl fun other fp hother => ?_
      by_cases hne : other = indx
      · rw [hne, Function.update_self] at hother
        cases hother
      · rw [Function.update_of_ne hne] at hother
        exact h.bound p other fp hother

theorem SoundBut.pipe (h : k.Sound) (hready : k.Ready p) (inode : Bool) :
    (k.pipe p inode).Sound := by
  unfold Kernel.pipe
  split
  · exact h
  · rcases h.falloc hready with
      ⟨k', heq, hsound, -, -⟩ | ⟨r, rf, k', heq, hsound, hready', -, hrows, -⟩
    · rw [heq]
      exact hsound
    · rw [heq]
      dsimp only
      have hrf : Users.rows k'.u p r = some rf := by
        rw [hrows, Function.update_self]
      rcases hsound.falloc hready' with
        ⟨k'', heq', hsound', hready'', hrows'⟩ | ⟨w, wf, k'', heq', hsound', hready'', -, -, hfree⟩
      · rw [heq']
        refine (hsound'.abandoned hready'' (hrows' ▸ hrf) (Or.inl rfl)).of_iff _ fun other => ?_
        exact ⟨False.elim, fun hin => hin.1.elim hin.2 id⟩
      · rw [heq']
        have hwf : wf ≠ rf := by
          rintro rfl
          have hpos : 0 < Users.refs k'.u wf := holders_pos hrf
          omega
        have hboth := ((hsound'.attach rf (Or.inr (Or.inl rfl))).attach wf
          ⟨Or.inl rfl, hwf⟩).of_iff (fun _ => False) fun other =>
            ⟨False.elim, fun hin => hin.1.1.elim hin.2 fun hor => hor.elim hin.1.2 id⟩
        have hrval := hboth.rval p r
        exact hrval.congr rfl rfl rfl (fun _ => rfl) (fun _ => rfl) hrval.dead hrval.bound

/-! ## Processes -/

/-- The references of a list of descriptors are added. -/
theorem foldl_reference (row : Fin NOFILE → Option (Fin NFILE)) (fds : List (Fin NOFILE))
    (k : Kernel NFILE nproc) :
    fds.foldl (reference row) k =
      { k with f_count := fun fp => k.f_count fp + (fds.map fun fd => holds (row fd) fp).sum } := by
  induction fds generalizing k with
  | nil => rfl
  | cons fd fds ih =>
      have hstep : reference row k fd =
          { k with f_count := fun fp => k.f_count fp + holds (row fd) fp } := by
        unfold reference
        cases row fd with
        | none => rfl
        | some fp =>
            simp only [setCount, Kernel.mk.injEq, and_true]
            funext other
            by_cases hother : other = fp
            · rw [hother, Function.update_self, holds_self]
            · rw [Function.update_of_ne hother,
                holds_ne fun heq => hother (Option.some.inj heq).symm, Nat.add_zero]
      rw [List.foldl_cons, ih, hstep]
      simp only [List.map_cons, List.sum_cons, Nat.add_assoc]

/-- The references of a list of descriptors are taken back. -/
theorem foldl_dereference (row : Fin NOFILE → Option (Fin NFILE)) (fds : List (Fin NOFILE))
    (k : Kernel NFILE nproc) :
    fds.foldl (dereference row) k =
      { k with f_count := fun fp => k.f_count fp - (fds.map fun fd => holds (row fd) fp).sum } := by
  induction fds generalizing k with
  | nil => rfl
  | cons fd fds ih =>
      have hstep : dereference row k fd =
          { k with f_count := fun fp => k.f_count fp - holds (row fd) fp } := by
        unfold dereference
        cases row fd with
        | none => rfl
        | some fp =>
            simp only [setCount, Kernel.mk.injEq, and_true]
            funext other
            by_cases hother : other = fp
            · rw [hother, Function.update_self, holds_self]
            · rw [Function.update_of_ne hother,
                holds_ne fun heq => hother (Option.some.inj heq).symm, Nat.sub_zero]
      rw [List.foldl_cons, ih, hstep]
      simp only [List.map_cons, List.sum_cons, Nat.sub_sub]

theorem SoundBut.sum_descriptors (h : k.SoundBut pend) (p : Fin nproc) (fp : Fin NFILE) :
    ((k.u p).descriptors.map fun fd => holds ((k.u p).u_ofile fd) fp).sum =
      held (Users.rows k.u p) fp := by
  rw [held, Fin.sum_univ_def, User.descriptors]
  refine sum_map_filter fun fd _ hout => holds_ne fun hfp => hout ?_
  exact decide_eq_true (h.bound p fd fp hfp)

/-- The child gets a copy of the parent's descriptors, and every entry as many references more. -/
theorem SoundBut.fork (h : k.Sound) {k' : Kernel NFILE nproc} {parent child : Fin nproc}
    (hready : k.Ready parent) (hdead : (k.u child).alive = false)
    (hu : k'.u = (k.onUser child fun _ => k.u parent).u)
    (hcount : ∀ fp, k'.f_count fp = k.f_count fp + held (Users.rows k.u parent) fp)
    (hattached : k'.attached = k.attached) (hreleased : k'.released = k.released) : k'.Sound := by
  have hrows : Users.rows (k.onUser child fun _ => k.u parent).u =
      Function.update (Users.rows k.u) child (Users.rows k.u parent) := rows_onUser ..
  have hrefs : ∀ fp, Users.refs (k.onUser child fun _ => k.u parent).u fp =
      Users.refs k.u fp + held (Users.rows k.u parent) fp := by
    intro fp
    have hsum := holders_update (Users.rows k.u) child (Users.rows k.u parent) fp
    rw [held_empty (h.dead child hdead) fp] at hsum
    rw [Users.refs, hrows]
    exact hsum
  have hidle : k.Idle child fun _ => k.u parent := by
    refine ⟨fun fd hopen => ?_, fun fd flags heq => ?_⟩
    · obtain ⟨fp, hfp, -⟩ := h.opens child fd hopen
      rw [h.dead child hdead fd] at hfp
      cases hfp
    · rw [hready.opening] at heq
      cases heq
  have hparent : ∀ fp, Users.BeingOpened k.u fp → held (Users.rows k.u parent) fp = 0 := by
    intro fp hbeing
    refine Finset.sum_eq_zero fun fd _ => holds_ne fun hfp => ?_
    exact h.not_beingOpened hready.not_opens hfp hbeing
  have hle : ∀ fp, held (Users.rows k.u parent) fp ≤ Users.refs k.u fp := fun fp =>
    Finset.single_le_sum (f := fun q => held (Users.rows k.u q) fp) (fun _ _ => Nat.zero_le _)
      (Finset.mem_univ parent)
  constructor
  · intro fp
    rw [hcount, hu, hrefs, h.count]
  · intro q fd fp hfp
    rw [hu] at hfp ⊢
    by_cases hq : q = child
    · subst hq
      rw [hrows, Function.update_self] at hfp
      rw [u_onUser_self]
      exact h.bound parent fd fp hfp
    · rw [hrows, Function.update_of_ne hq] at hfp
      rw [u_onUser_ne hq]
      exact h.bound q fd fp hfp
  · intro q hq' fd
    rw [hu] at hq' ⊢
    by_cases hq : q = child
    · subst hq
      rw [u_onUser_self, hready.alive] at hq'
      cases hq'
    · rw [u_onUser_ne hq] at hq'
      rw [hrows, Function.update_of_ne hq]
      exact h.dead q hq' fd
  · intro q fd hopen
    rw [hu] at hopen ⊢
    rw [hidle.opens] at hopen
    obtain ⟨fp, hfp, hone⟩ := h.opens q fd hopen
    refine ⟨fp, (congrFun (hidle.rows hopen) fd).trans hfp, ?_⟩
    rw [hrefs, hone, hparent fp ⟨q, fd, hopen, hfp⟩]
  · intro fp hzero
    rw [hu, hrefs] at hzero
    rw [hattached, hreleased]
    exact h.free fp (by omega)
  · intro fp hpos hbeing hpend
    rw [hu, hrefs] at hpos
    rw [hu, hidle.beingOpened] at hbeing
    rw [hattached, hreleased]
    have := hle fp
    exact h.live fp (by omega) hbeing hpend
  · intro fp hpend
    rw [hu, hidle.beingOpened] at hpend
    rw [hattached, hreleased]
    exact h.pending fp hpend
  · intro fp hpend
    exact hpend.elim

theorem SoundBut.newproc (h : k.Sound) {parent child : Fin nproc} (hready : k.Ready parent)
    (hdead : (k.u child).alive = false) (room : Bool) : (k.newproc parent child room).Sound := by
  unfold Kernel.newproc
  dsimp only
  rw [foldl_reference]
  simp only [h.sum_descriptors]
  split
  · refine h.fork hready hdead ?_ ?_ ?_ ?_ <;> simp only [Kernel.onUser, implies_true]
  · -- the references are taken back
    rw [foldl_dereference]
    simp only [h.sum_descriptors, Nat.add_sub_cancel]
    exact h.error parent .eagain

/-! ## Runs -/

theorem sound_boot (NFILE nproc : Nat) (p : Fin nproc) : (boot NFILE nproc p).Sound where
  count fp := (holders_empty (fun _ _ => rfl) fp).symm
  bound _ _ _ hfp := nomatch hfp
  dead _ _ _ := rfl
  opens _ _ hopen := by
    obtain ⟨_, heq⟩ := hopen
    cases heq
  free _ _ := rfl
  live fp hpos := by
    have hzero : Users.refs (boot NFILE nproc p).u fp = 0 := holders_empty (fun _ _ => rfl) fp
    omega
  pending _ _ := rfl
  once _ hpend := hpend.elim

/-- Every event keeps the invariant. -/
theorem sound_event {k' : Kernel NFILE nproc} {e : Event nproc} (h : k.Sound)
    (hstep : k.event e = some k') : k'.Sound := by
  have hif : ∀ {ready : Bool} {next : Kernel NFILE nproc},
      (if ready = true then some next else none) = some k' → ready = true ∧ next = k' := by
    intro ready next heq
    cases ready with
    | true => exact ⟨rfl, Option.some.inj heq⟩
    | false => cases heq
  cases e with
  | «open» p flags =>
      obtain ⟨hready, rfl⟩ := hif hstep
      exact h.copen (.of_bool hready) flags
  | opened p result =>
      unfold event at hstep
      dsimp only at hstep
      split at hstep
      · rename_i indx flags hopening
        obtain ⟨fp, hfp, rfl⟩ := Option.map_eq_some_iff.mp hstep
        refine h.vnOpened ?_ hopening hfp result
        cases halive : (k.u p).alive with
        | true => rfl
        | false =>
            have hnone := h.dead p halive indx
            rw [Users.rows, hfp] at hnone
            cases hnone
      · cases hstep
  | locked p error =>
      unfold event at hstep
      dsimp only at hstep
      split at hstep
      · rename_i indx hopening
        cases hstep
        exact h.locked hopening error
      · cases hstep
  | pipe p inode =>
      obtain ⟨hready, rfl⟩ := hif hstep
      exact h.pipe (.of_bool hready) inode
  | dup p i j =>
      obtain ⟨hready, rfl⟩ := hif hstep
      exact h.dup (.of_bool hready) i j
  | dup2 p i j =>
      obtain ⟨hready, rfl⟩ := hif hstep
      exact h.dup2 (.of_bool hready) i j
  | fcntl p fdes cmd =>
      obtain ⟨hready, rfl⟩ := hif hstep
      exact h.fcntl (.of_bool hready) fdes cmd
  | close p i =>
      obtain ⟨hready, rfl⟩ := hif hstep
      exact h.close (.of_bool hready) i
  | fork parent child room =>
      unfold event at hstep
      dsimp only at hstep
      split at hstep
      · rename_i hready
        cases hstep
        exact h.newproc (.of_bool hready.1) hready.2 room
      · cases hstep
  | execve p =>
      obtain ⟨hready, rfl⟩ := hif hstep
      exact h.execve (.of_bool hready)
  | exit p =>
      obtain ⟨hready, rfl⟩ := hif hstep
      exact h.exit (.of_bool hready)

/-- The descriptors of all processes that refer to an entry. -/
def slots (k : Kernel NFILE nproc) (fp : Fin NFILE) : Finset (Fin nproc × Fin NOFILE) :=
  Finset.univ.filter fun slot => (k.u slot.1).u_ofile slot.2 = some fp

/-- In every run the count of an entry is the number of descriptors that refer to it, the objects that
were attached to it are all released but the present one, and no open descriptor is beyond
`u_lastfile`. -/
theorem references_counted {p : Fin nproc} {events : List (Event nproc)}
    (hrun : Steps (Steps.Of event) (boot NFILE nproc p) events k) :
    (∀ fp, k.f_count fp = (k.slots fp).card) ∧
    (∀ fp, k.slots fp = ∅ → k.released fp = k.attached fp) ∧
    (∀ fp, k.slots fp ≠ ∅ → ¬ Users.BeingOpened k.u fp → k.released fp + 1 = k.attached fp) ∧
    (∀ fp, Users.BeingOpened k.u fp → k.released fp = k.attached fp) ∧
    ∀ q fd fp, (k.u q).u_ofile fd = some fp → (fd : Int) ≤ (k.u q).u_lastfile := by
  have hsound : k.Sound :=
    hrun.invariant Sound (fun _ _ _ h hstep => sound_event h hstep) (sound_boot NFILE nproc p)
  have hcard : ∀ fp, Users.refs k.u fp = (k.slots fp).card := fun fp =>
    holders_eq_card (Users.rows k.u) fp
  refine ⟨fun fp => (hsound.count fp).trans (hcard fp), ?_, ?_, ?_, hsound.bound⟩
  · intro fp hnone
    refine (hsound.free fp ?_).symm
    rw [hcard, hnone, Finset.card_empty]
  · intro fp hsome hnot
    refine (hsound.live fp ?_ hnot id).symm
    rw [hcard]
    exact Finset.card_pos.mpr (Finset.nonempty_iff_ne_empty.mpr hsome)
  · exact fun fp hbeing => (hsound.pending fp (Or.inl hbeing)).symm

/-- An open file that a process duplicates, shares with a child and closes once. -/
theorem references_counted_shared : ∃ k : Kernel 4 2,
    Steps (Steps.Of event) (boot 4 2 0)
      [.open 0 FREAD, .opened 0 .found, .dup2 0 0 5, .fork 0 1 true, .close 0 0] k ∧
    (k.slots 0).card = 3 := by
  have hrun : Steps (Steps.Of event) (boot 4 2 0)
      [.open 0 FREAD, .opened 0 .found, .dup2 0 0 5, .fork 0 1 true, .close 0 0] _ :=
    .of_foldlM rfl
  exact ⟨_, hrun, ((references_counted hrun).1 0).symm⟩

end Kernel

end DiscoBsd.File
