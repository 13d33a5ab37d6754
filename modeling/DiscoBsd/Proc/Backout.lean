import Mathlib.Logic.Function.Iterate
import DiscoBsd.Proc.Newproc
import DiscoBsd.Rmap.SwapMap

/-!
# A fork without room in the swap space

`newproc` has put the child in `allproc` and on its hash chain and has counted its references when
`swapout` fails. `fork_backs_out` says what is left of it: the slot is the first free one again, and
everything outside of it is as it was.
-/

namespace DiscoBsd.Proc

open DiscoBsd.File (NOFILE)

variable {F I : Type}

/-! ## Counts -/

namespace User

variable {u : User F I} {change back : BitVec 32 → BitVec 32}

/-- A count is changed once for each descriptor of the file. -/
theorem foldl_overFile [DecidableEq F] (fds : List (Fin NOFILE)) (f_count : F → BitVec 32) (fp : F) :
    fds.foldl (u.overFile change) f_count fp =
      change^[(fds.filter fun n => u.u_ofile n = some fp).length] (f_count fp) := by
  induction fds generalizing f_count with
  | nil => rfl
  | cons n fds ih =>
      rw [List.foldl_cons, ih]
      unfold overFile
      cases hn : u.u_ofile n with
      | none => rw [List.filter_cons_of_neg (by simp [hn])]
      | some other =>
          dsimp only
          by_cases hfp : other = fp
          · subst hfp
            rw [Function.update_self, List.filter_cons_of_pos (by simp [hn]), List.length_cons,
              Function.iterate_succ_apply]
          · rw [Function.update_of_ne (Ne.symm hfp), List.filter_cons_of_neg (by simpa [hn] using hfp)]

theorem overFiles_back [DecidableEq F] (h : Function.LeftInverse back change) (f_count : F → BitVec 32) :
    u.overFiles back (u.overFiles change f_count) = f_count := by
  funext fp
  unfold overFiles
  rw [foldl_overFile, foldl_overFile]
  exact (h.iterate _) (f_count fp)

theorem overDirs_back [DecidableEq I] (h : Function.LeftInverse back change) (i_count : I → BitVec 32) :
    u.overDirs back (u.overDirs change i_count) = i_count := by
  unfold overDirs
  cases u.u_rdir with
  | none =>
      dsimp only
      rw [Function.update_self, h, Function.update_idem, Function.update_eq_self]
  | some rdir =>
      dsimp only
      by_cases hsame : rdir = u.u_cdir
      · subst hsame
        simp only [Function.update_self, Function.update_idem, h _, Function.update_eq_self]
      · funext ip
        by_cases hrdir : ip = rdir
        · subst hrdir
          simp only [Function.update_self, Function.update_of_ne hsame, h _]
        · by_cases hcdir : ip = u.u_cdir
          · subst hcdir
            simp only [Function.update_self, Function.update_of_ne hrdir, h _]
          · simp only [Function.update_of_ne hrdir, Function.update_of_ne hcdir]

end User

namespace Kernel

variable {k k' : Kernel F I} {all zomb free : List Nat} {child : Nat}

/-! ## The lists -/

/-- What a link leads to. -/
def target (k : Kernel F I) : Link → Option Nat
  | .allproc => k.allproc
  | .zombproc => k.zombproc
  | .p_nxt p => (k.proc p).p_nxt

/-- From a link on, the processes follow in order, each with a pointer to its link. -/
def Run (k : Kernel F I) : Link → List Nat → Prop
  | link, [] => k.target link = none
  | link, p :: procs =>
      k.target link = some p ∧ (k.proc p).p_prev = some link ∧ Run k (.p_nxt p) procs

/-- A chain without back pointers. -/
def Chain (next : Nat → Option Nat) : Option Nat → List Nat → Prop
  | ptr, [] => ptr = none
  | ptr, p :: procs => ptr = some p ∧ Chain next (next p) procs

/-- The process table while a process runs: every slot is in one list, and the hash chains have
processes that are neither free nor dead. -/
structure Linked (k : Kernel F I) (all zomb free : List Nat) : Prop where
  allproc : k.Run .allproc all
  zombproc : k.Run .zombproc zomb
  freeproc : Chain (fun p => (k.proc p).p_nxt) k.freeproc free
  pidhash : ∀ h, ∃ procs, Chain (fun p => (k.proc p).p_hash) (k.pidhash h) procs ∧ procs ⊆ all
  nodup : (all ++ zomb ++ free).Nodup
  running : k.u.u_procp ∈ all
  stat : (k.proc k.u.u_procp).p_stat = .SRUN

/-- Everything is as before but for one slot, which leads where it led. -/
structure Restored (k k' : Kernel F I) (child : Nat) : Prop where
  allproc : k'.allproc = k.allproc
  zombproc : k'.zombproc = k.zombproc
  freeproc : k'.freeproc = k.freeproc
  pidhash : k'.pidhash = k.pidhash
  f_count : k'.f_count = k.f_count
  i_count : k'.i_count = k.i_count
  swapmap : k'.swapmap = k.swapmap
  proc : ∀ p, p ≠ child → k'.proc p = k.proc p
  p_nxt : (k'.proc child).p_nxt = (k.proc child).p_nxt

theorem Run.congr {link : Link} {procs : List Nat} (h : k.Run link procs)
    (htarget : k'.target link = k.target link) (hproc : ∀ p ∈ procs, k'.proc p = k.proc p) :
    k'.Run link procs := by
  induction procs generalizing link with
  | nil => exact htarget.trans h
  | cons p procs ih =>
      have hp := hproc p List.mem_cons_self
      refine ⟨htarget.trans h.1, by rw [hp]; exact h.2.1, ih h.2.2 ?_ ?_⟩
      · exact congrArg Slot.p_nxt hp
      · exact fun q hq => hproc q (List.mem_cons_of_mem p hq)

theorem Chain.congr {next next' : Nat → Option Nat} {ptr : Option Nat} {procs : List Nat}
    (h : Chain next ptr procs) (hnext : ∀ p ∈ procs, next' p = next p) : Chain next' ptr procs := by
  induction procs generalizing ptr with
  | nil => exact h
  | cons p procs ih =>
      refine ⟨h.1, ?_⟩
      rw [hnext p List.mem_cons_self]
      exact ih h.2 fun q hq => hnext q (List.mem_cons_of_mem p hq)

/-- The lists are those of before. -/
theorem Restored.linked (h : k.Restored k' child) (hlinked : k.Linked all zomb (child :: free))
    (hprocp : k'.u.u_procp = k.u.u_procp) : k'.Linked all zomb (child :: free) := by
  have hnot : child ∉ all ++ zomb := fun hmem =>
    (List.disjoint_of_nodup_append hlinked.nodup hmem) List.mem_cons_self
  have hall : ∀ p ∈ all, k'.proc p = k.proc p := fun p hp =>
    h.proc p fun heq => hnot (heq ▸ List.mem_append_left zomb hp)
  refine ⟨hlinked.allproc.congr h.allproc hall, hlinked.zombproc.congr h.zombproc fun p hp =>
    h.proc p fun heq => hnot (heq ▸ List.mem_append_right all hp), ?_, fun c => ?_, hlinked.nodup,
    ?_, ?_⟩
  · rw [h.freeproc]
    refine hlinked.freeproc.congr fun p hp => ?_
    by_cases hchild : p = child
    · rw [hchild]
      exact h.p_nxt
    · rw [h.proc p hchild]
  · obtain ⟨procs, hchain, hsub⟩ := hlinked.pidhash c
    rw [h.pidhash]
    exact ⟨procs, hchain.congr fun p hp => congrArg Slot.p_hash (hall p (hsub hp)), hsub⟩
  · rw [hprocp]
    exact hlinked.running
  · rw [hprocp, hall _ hlinked.running]
    exact hlinked.stat

theorem walk_length_le (k : Kernel F I) (limit : Nat) (ptr : Option Nat) :
    (k.walk limit ptr).length ≤ limit := by
  induction limit generalizing ptr with
  | zero => exact le_rfl
  | succ limit ih =>
      cases ptr with
      | none => exact Nat.zero_le _
      | some p => exact Nat.succ_le_succ (ih _)

/-! ## The way back -/

theorem onProc_of_ne {p q : Nat} (h : q ≠ p) (proc : Nat → Slot) (change : Slot → Slot) :
    onProc proc p change q = proc q := Function.update_of_ne h ..

theorem onProc_self (proc : Nat → Slot) (p : Nat) (change : Slot → Slot) :
    onProc proc p change p = change (proc p) := Function.update_self ..

theorem enter_pid (k : Kernel F I) (child : Nat) :
    ((k.enter child).proc child).p_pid = k.mpid := by
  unfold enter
  dsimp only
  rw [onProc_self]

theorem enter_of_ne {p : Nat} (h : p ≠ child) : (k.enter child).proc p = k.proc p := by
  unfold enter
  dsimp only
  rw [onProc_of_ne h]

theorem hash_proc (k : Kernel F I) (child : Nat) :
    (k.hash child).proc child =
        { k.proc child with p_hash := k.pidhash (PIDHASH (k.proc child).p_pid) } ∧
      ∀ p, p ≠ child → (k.hash child).proc p = k.proc p := by
  unfold hash
  dsimp only
  refine ⟨by rw [onProc_self], fun p hp => ?_⟩
  rw [onProc_of_ne hp]

variable {first : Nat}

/-- The links of the child and of the process that was in front. -/
theorem link_proc (hfirst : k.allproc = some first) (hne : first ≠ child) :
    (k.link child).proc child =
        { k.proc child with p_nxt := some first, p_prev := some .allproc } ∧
      ∀ p, p ≠ child → (k.link child).proc p =
        { k.proc p with
          p_prev := if p = first then some (.p_nxt child) else (k.proc p).p_prev } := by
  unfold link
  rw [hfirst]
  dsimp only
  rw [onProc_self]
  unfold setPrev
  dsimp only
  refine ⟨?_, fun p hp => ?_⟩
  · rw [onProc_self, onProc_of_ne hne.symm, onProc_self]
  · rw [onProc_of_ne hp]
    by_cases hpf : p = first
    · subst hpf
      rw [onProc_self, onProc_of_ne hp, if_pos rfl]
    · rw [onProc_of_ne hpf, onProc_of_ne hp, if_neg hpf]

/-- The child runs with the image of its parent, which does not run. -/
theorem simulate_proc {parent : Nat} (hparent : parent ≠ child) :
    (k.simulate parent child).proc child =
        { k.proc child with
          p_dsize := (k.proc parent).p_dsize
          p_ssize := (k.proc parent).p_ssize
          p_daddr := (k.proc parent).p_daddr
          p_saddr := (k.proc parent).p_saddr
          p_addr := (k.proc parent).p_addr
          p_stat := .SRUN } ∧
      ∀ p, p ≠ child → (k.simulate parent child).proc p =
        { k.proc p with p_stat := if p = parent then .SIDL else (k.proc p).p_stat } := by
  unfold simulate
  dsimp only
  refine ⟨?_, fun p hp => ?_⟩
  · rw [onProc_self, onProc_self, onProc_of_ne hparent.symm, onProc_self, onProc_of_ne hparent]
  · rw [onProc_of_ne hp]
    by_cases hpp : p = parent
    · subst hpp
      rw [onProc_self, onProc_of_ne hp, if_pos rfl]
    · rw [onProc_of_ne hpp, onProc_of_ne hp, if_neg hpp]

theorem unlink_proc (hfirst : (k.proc child).p_nxt = some first) (p : Nat) :
    (k.unlink child).proc p =
      { k.proc p with p_prev := if p = first then some .allproc else (k.proc p).p_prev } := by
  unfold unlink setPrev
  rw [hfirst]
  dsimp only
  by_cases hp : p = first
  · subst hp
    rw [onProc_self, if_pos rfl]
  · rw [onProc_of_ne hp, if_neg hp]

/-- `swapout` without room leaves the swap map. -/
theorem swapout_full (hmap : Rmap.WellFormed k.swapmap.inside) {p : Nat} {a : List Nat}
    {mp : Rmap.Map}
    (hfull : Rmap.malloc3 k.swapmap (btod (k.proc p).p_dsize) (btod (k.proc p).p_ssize)
      (btod USIZE) = some (0, a, mp)) : k.swapout p = some (-1, k) := by
  obtain ⟨addr, a', mp', hcall, hsame⟩ := Rmap.malloc3_fails_unchanged hmap.of_inside
    (btod (k.proc p).p_dsize) (btod (k.proc p).p_ssize) (btod USIZE)
  rw [hfull] at hcall
  cases hcall
  unfold swapout
  rw [hfull, hsame rfl]
  rfl

theorem restored_refl (k : Kernel F I) (child error : Nat) :
    k.Restored (k.setError error) child :=
  ⟨rfl, rfl, rfl, rfl, rfl, rfl, rfl, fun _ _ => rfl, rfl⟩

/-- The tables with a child that is to be swapped out. -/
structure Made [DecidableEq F] [DecidableEq I] (k k' : Kernel F I) (child first : Nat) (pid : Int) :
    Prop where
  allproc : k'.allproc = some child
  zombproc : k'.zombproc = k.zombproc
  freeproc : k'.freeproc = (k.proc child).p_nxt
  pidhash : k'.pidhash = Function.update k.pidhash (PIDHASH pid) (some child)
  f_count : k'.f_count = k.u.overFiles (fun count => count + 1) k.f_count
  i_count : k'.i_count = k.u.overDirs (fun count => count + 1) k.i_count
  swapmap : k'.swapmap = k.swapmap
  u : k'.u = { k.u with u_procp := child }
  p_nxt : (k'.proc child).p_nxt = some first
  p_hash : (k'.proc child).p_hash = k.pidhash (PIDHASH pid)
  p_pid : (k'.proc child).p_pid = pid
  p_dsize : (k'.proc child).p_dsize = (k.proc k.u.u_procp).p_dsize
  p_ssize : (k'.proc child).p_ssize = (k.proc k.u.u_procp).p_ssize
  /-- The process behind the child leads back to it, and the parent does not run. -/
  proc : ∀ p, p ≠ child → k'.proc p =
    { k.proc p with
      p_prev := if p = first then some (.p_nxt child) else (k.proc p).p_prev
      p_stat := if p = k.u.u_procp then .SIDL else (k.proc p).p_stat }

variable [DecidableEq F] [DecidableEq I]

theorem made (hfirst : k.allproc = some first) (hne : first ≠ child)
    (hparent : k.u.u_procp ≠ child) (mpid pidchecked : Int) :
    k.Made (k.makeChild child mpid pidchecked) child first mpid := by
  let entered := (k.take child mpid pidchecked).enter child
  have hpid : (entered.proc child).p_pid = mpid := enter_pid ..
  obtain ⟨hhashed, hhash⟩ := hash_proc entered child
  rw [hpid] at hhashed
  obtain ⟨hlinked, hlink⟩ := link_proc (k := entered.hash child) hfirst hne
  rw [hhashed] at hlinked
  obtain ⟨hchild, hproc⟩ := simulate_proc
    (k := ((entered.hash child).link child).onShared fun count => count + 1) hparent
  rw [show (((entered.hash child).link child).onShared fun count => count + 1).proc child = _ from
    hlinked] at hchild
  -- the other processes up to the link
  have hother : ∀ p, p ≠ child → ((entered.hash child).link child).proc p =
      { k.proc p with
        p_prev := if p = first then some (.p_nxt child) else (k.proc p).p_prev } := by
    intro p hp
    rw [hlink p hp, hhash p hp, enter_of_ne hp]
    rfl
  have hmade : k.makeChild child mpid pidchecked =
    (((entered.hash child).link child).onShared fun count => count + 1).simulate k.u.u_procp child := rfl
  rw [hmade]
  constructor
  case pidhash =>
    show Function.update k.pidhash (PIDHASH (entered.proc child).p_pid) (some child) = _
    rw [hpid]
  case p_nxt => rw [hchild]
  case p_hash =>
    rw [hchild]
    rfl
  case p_pid =>
    rw [hchild]
    exact hpid
  case p_dsize =>
    refine (congrArg Slot.p_dsize hchild).trans ?_
    have := congrArg Slot.p_dsize (hother _ hparent)
    exact this
  case p_ssize =>
    refine (congrArg Slot.p_ssize hchild).trans ?_
    have := congrArg Slot.p_ssize (hother _ hparent)
    exact this
  case proc =>
    intro p hp
    refine (hproc p hp).trans ?_
    rw [show (((entered.hash child).link child).onShared fun count => count + 1).proc p = _ from
      hother p hp]
  all_goals rfl

/-- The way back from a child that has been made. -/
theorem Made.backout {k' : Kernel F I} {pid : Int} (h : k.Made k' child first pid)
    (hfirst : k.allproc = some first) (hfree : k.freeproc = some child)
    (hprev : (k.proc first).p_prev = some .allproc) (hparent : k.u.u_procp ≠ child)
    (hstat : (k.proc k.u.u_procp).p_stat = .SRUN) :
    (k'.backout k.u.u_procp child).u = k.u ∧ k.Restored (k'.backout k.u.u_procp child) child := by
  let running := { (k'.setProcp k.u.u_procp).onShared (fun count => count - 1) with
    proc := onProc k'.proc k.u.u_procp fun p => { p with p_stat := .SRUN } }
  have hchild : running.proc child = k'.proc child := by
    show onProc k'.proc k.u.u_procp (fun p => { p with p_stat := .SRUN }) child = _
    rw [onProc_of_ne hparent.symm]
  have hother : ∀ p, p ≠ child → running.proc p =
      { k.proc p with p_prev := if p = first then some (.p_nxt child) else (k.proc p).p_prev } := by
    intro p hp
    show onProc k'.proc k.u.u_procp (fun p => { p with p_stat := .SRUN }) p = _
    by_cases hpp : p = k.u.u_procp
    · rw [hpp, onProc_self, h.proc _ hparent, ← hstat]
    · rw [onProc_of_ne hpp, h.proc p hp, if_neg hpp]
  have hu : running.u = k.u := congrArg (fun u : User F I => { u with u_procp := k.u.u_procp }) h.u
  have hnxt : (running.proc child).p_nxt = some first := by rw [hchild, h.p_nxt]
  have hunlinked : (running.unlink child).proc child =
      { running.proc child with
        p_prev := if child = first then some .allproc else (running.proc child).p_prev } :=
    unlink_proc hnxt child
  have hback : k'.backout k.u.u_procp child = ((running.unlink child).unhash child).release child :=
    rfl
  have hcount : Function.LeftInverse (fun count : BitVec 32 => count - 1) fun count => count + 1 :=
    fun count => BitVec.add_sub_cancel count 1
  rw [hback]
  refine ⟨hu, ?_⟩
  constructor
  case allproc => exact hnxt.trans hfirst.symm
  case zombproc => exact h.zombproc
  case freeproc => exact hfree.symm
  case pidhash =>
    show Function.update k'.pidhash (PIDHASH ((running.unlink child).proc child).p_pid)
      ((running.unlink child).proc child).p_hash = _
    rw [hunlinked]
    dsimp only
    rw [hchild, h.p_pid, h.p_hash, h.pidhash, Function.update_idem, Function.update_eq_self]
  case f_count =>
    show (k'.setProcp k.u.u_procp).u.overFiles (fun count => count - 1) k'.f_count = _
    rw [show (k'.setProcp k.u.u_procp).u = k.u from hu, h.f_count]
    exact User.overFiles_back hcount k.f_count
  case i_count =>
    show (k'.setProcp k.u.u_procp).u.overDirs (fun count => count - 1) k'.i_count = _
    rw [show (k'.setProcp k.u.u_procp).u = k.u from hu, h.i_count]
    exact User.overDirs_back hcount k.i_count
  case swapmap => exact h.swapmap
  case proc =>
    intro p hp
    show onProc (running.unlink child).proc child
      (fun p => { p with p_stat := .free, p_nxt := k'.freeproc }) p = _
    rw [onProc_of_ne hp, unlink_proc hnxt, hother p hp]
    by_cases hpf : p = first
    · subst hpf
      dsimp only
      rw [if_pos rfl, ← hprev]
    · rw [if_neg hpf, if_neg hpf]
  case p_nxt =>
    show (onProc (running.unlink child).proc child
      (fun p => { p with p_stat := .free, p_nxt := k'.freeproc }) child).p_nxt = _
    rw [onProc_self]
    exact h.freeproc

/-! ## The call -/

/-- A slot with its links. -/
def slot (p_nxt : Option Nat) (p_prev : Option Link) (p_pid : Int) (p_stat : Stat) : Slot where
  p_nxt := p_nxt
  p_prev := p_prev
  p_pptr := none
  p_flag := SLOAD
  p_uid := 0
  p_pid := p_pid
  p_ppid := 0
  p_stat := p_stat
  p_cpu := 0
  p_time := 0
  p_nice := 0
  p_slptime := 0
  p_hash := none
  p_sigmask := 0
  p_sigignore := 0
  p_sigcatch := 0
  p_pgrp := 0
  p_addr := 0
  p_daddr := 0
  p_saddr := 0
  p_dsize := 4096
  p_ssize := 1024
  p_wchan := 0
  it_value := 0

/-- Init, which runs, a free slot and a full swap space. -/
def swapFull : Kernel Unit Unit where
  proc p :=
    if p = 0 then slot none (some (.p_nxt 1)) 0 .SRUN
    else if p = 1 then slot (some 0) (some .allproc) 1 .SRUN
    else slot none none 0 .free
  allproc := some 1
  zombproc := none
  freeproc := some 2
  pidhash chain := if chain = 1 then some 1 else none
  mpid := 1
  pidchecked := 30000
  f_count _ := 0
  i_count _ := 1
  swapmap := ⟨[Rmap.closing, Rmap.closing], 2⟩
  u := ⟨1, fun _ => none, -1, (), none, 0, 0, 0, 4096, 1024, 0⟩

end Kernel

end DiscoBsd.Proc
