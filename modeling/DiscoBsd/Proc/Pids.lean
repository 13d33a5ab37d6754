import Mathlib.Data.Int.Interval

/-!
# The search for a process id

`newproc` gives the next number to a child. `pidchecked` is the lowest number in use above the one
given last: up to it nothing has to be looked up. From there on the processes are scanned, and a
candidate that is in use moves on during the scan.
-/

namespace DiscoBsd.Proc

/-- The number with which the candidates start again, after `PID_MAX - 1`. -/
def PID_MIN : Int := 100

def PID_MAX : Int := 30000

/-- A process, in its slot of the table, as the search sees it. -/
structure Entry where
  slot : Nat
  p_pid : Int
  p_pgrp : Int
deriving DecidableEq

/-- The number is the id of the process or of its group. -/
def Entry.Uses (p : Entry) (number : Int) : Prop := p.p_pid = number ∨ p.p_pgrp = number

instance (p : Entry) (number : Int) : Decidable (p.Uses number) :=
  inferInstanceAs (Decidable (p.p_pid = number ∨ p.p_pgrp = number))

/-- The lowest number seen above the candidate. -/
def lower (mpid pidchecked number : Int) : Int :=
  if mpid < number ∧ number < pidchecked then number else pidchecked

/-- The scan at one process: the candidate and `pidchecked`, or `goto retry` with them. -/
def visit : Int × Int → Entry → Except (Int × Int) (Int × Int)
  | (mpid, pidchecked), p =>
      if p.Uses mpid then
        if pidchecked ≤ mpid + 1 then .error (mpid + 1, pidchecked)
        else .ok (mpid + 1, lower (mpid + 1) (lower (mpid + 1) pidchecked p.p_pid) p.p_pgrp)
      else .ok (mpid, lower mpid (lower mpid pidchecked p.p_pid) p.p_pgrp)

/-- The scan of all processes from a candidate on. -/
def scan (procs : List Entry) (mpid : Int) : Except (Int × Int) (Int × Int) :=
  procs.foldlM visit (mpid, PID_MAX)

/-- The candidates wrap around. -/
def wrap (mpid pidchecked : Int) : Int × Int :=
  if PID_MAX ≤ mpid then (PID_MIN, 0) else (mpid, pidchecked)

/-- The search from `retry` on, with at most so many scans. -/
def retry (procs : List Entry) : Nat → Int → Int → Option (Int × Int)
  | 0, _, _ => none
  | scans + 1, mpid, pidchecked =>
      if (wrap mpid pidchecked).2 ≤ (wrap mpid pidchecked).1 then
        match scan procs (wrap mpid pidchecked).1 with
        | .ok found => some found
        | .error (mpid, pidchecked) => retry procs scans mpid pidchecked
      else some (wrap mpid pidchecked)

/-- A search from `retry` on scans from this candidate at some time. -/
inductive Scans (procs : List Entry) : Int → Int → Int → Prop where
  | now {mpid pidchecked} : (wrap mpid pidchecked).2 ≤ (wrap mpid pidchecked).1 →
      Scans procs mpid pidchecked (wrap mpid pidchecked).1
  | later {mpid pidchecked mpid' pidchecked' start} :
      (wrap mpid pidchecked).2 ≤ (wrap mpid pidchecked).1 →
      scan procs (wrap mpid pidchecked).1 = .error (mpid', pidchecked') →
      Scans procs mpid' pidchecked' start → Scans procs mpid pidchecked start

/-- A scan goes past a process that has both the candidate and the next number, and finds no other
process with the next number. -/
def Misses (procs : List Entry) (start checked : Int) : Prop :=
  ∃ before p after mpid pidchecked, procs = before ++ p :: after ∧
    before.foldlM visit (start, checked) = .ok (mpid, pidchecked) ∧
    p.Uses mpid ∧ p.Uses (mpid + 1) ∧ mpid + 1 < pidchecked ∧
    ∀ q ∈ after, ¬ q.Uses (mpid + 1)

variable {procs : List Entry} {mpid pidchecked : Int}

/-! ## One process -/

theorem lower_le (mpid pidchecked number : Int) : lower mpid pidchecked number ≤ pidchecked := by
  unfold lower
  split
  · rename_i h
    exact h.2.le
  · exact le_rfl

theorem lt_lower {number : Int} (h : mpid < pidchecked) : mpid < lower mpid pidchecked number := by
  unfold lower
  split
  · rename_i hin
    exact hin.1
  · exact h

theorem lower_le_of_lt {number : Int} (h : mpid < number) : lower mpid pidchecked number ≤ number := by
  unfold lower
  split
  · exact le_rfl
  · omega

/-- What the scan does at a process: it moves on from a number in use, to the next one, and
`pidchecked` is not above any number of the process that the candidate has not reached. -/
theorem visit_ok {p : Entry} {mpid' pidchecked' : Int} (hlt : mpid < pidchecked)
    (h : visit (mpid, pidchecked) p = .ok (mpid', pidchecked')) :
    (p.Uses mpid ∧ mpid' = mpid + 1 ∧ mpid + 1 < pidchecked ∨ ¬ p.Uses mpid ∧ mpid' = mpid) ∧
      mpid' < pidchecked' ∧ pidchecked' ≤ pidchecked ∧
      ∀ number, p.Uses number → mpid' < number → pidchecked' ≤ number := by
  have hlowered : ∀ m, m < pidchecked →
      m < lower m (lower m pidchecked p.p_pid) p.p_pgrp ∧
      lower m (lower m pidchecked p.p_pid) p.p_pgrp ≤ pidchecked ∧
      ∀ number, p.Uses number → m < number →
        lower m (lower m pidchecked p.p_pid) p.p_pgrp ≤ number := by
    intro m hm
    refine ⟨lt_lower (lt_lower hm), (lower_le ..).trans (lower_le ..), ?_⟩
    rintro number (rfl | rfl) hnumber
    · exact (lower_le ..).trans (lower_le_of_lt hnumber)
    · exact lower_le_of_lt hnumber
  unfold visit at h
  dsimp only at h
  split at h
  · rename_i huses
    split at h
    · cases h
    · cases h
      exact ⟨.inl ⟨huses, rfl, by omega⟩, hlowered (mpid + 1) (by omega)⟩
  · rename_i huses
    cases h
    exact ⟨.inr ⟨huses, rfl⟩, hlowered mpid hlt⟩

/-- The scan is given up at a number in use, when the next one has to be looked up. -/
theorem visit_error {p : Entry} {mpid' pidchecked' : Int}
    (h : visit (mpid, pidchecked) p = .error (mpid', pidchecked')) :
    p.Uses mpid ∧ mpid' = mpid + 1 ∧ pidchecked' = pidchecked ∧ pidchecked ≤ mpid + 1 := by
  unfold visit at h
  dsimp only at h
  split at h
  · rename_i huses
    split at h
    · rename_i hle
      cases h
      exact ⟨huses, rfl, rfl, hle⟩
    · cases h
  · cases h

/-! ## A scan -/

theorem scan_cons {p : Entry} {after : List Entry} {state : Int × Int}
    {found : Int × Int} (h : (p :: after).foldlM visit state = .ok found) :
    ∃ next, visit state p = .ok next ∧ after.foldlM visit next = .ok found := by
  rw [List.foldlM_cons] at h
  cases hvisit : visit state p with
  | error e =>
      rw [hvisit] at h
      cases h
  | ok next =>
      rw [hvisit] at h
      exact ⟨next, rfl, h⟩

/-- A scan that ends: the candidate only grows, and no process has a number between it and
`pidchecked`. -/
theorem scan_ok {found checked : Int} (hlt : mpid < pidchecked)
    (h : procs.foldlM visit (mpid, pidchecked) = .ok (found, checked)) :
    mpid ≤ found ∧ found < checked ∧ checked ≤ pidchecked ∧
      ∀ p ∈ procs, ∀ number, p.Uses number → found < number → checked ≤ number := by
  induction procs generalizing mpid pidchecked with
  | nil =>
      cases h
      exact ⟨le_rfl, hlt, le_rfl, fun _ hp => absurd hp List.not_mem_nil⟩
  | cons p after ih =>
      obtain ⟨⟨mpid', pidchecked'⟩, hvisit, hafter⟩ := scan_cons h
      obtain ⟨hmove, hlt', hle', hseen⟩ := visit_ok hlt hvisit
      obtain ⟨hfound, hfoundlt, hchecked, hrest⟩ := ih hlt' hafter
      refine ⟨by omega, hfoundlt, by omega, fun q hq number huses hnumber => ?_⟩
      rcases List.mem_cons.mp hq with rfl | hq
      · have := hseen number huses (by omega)
        omega
      · exact hrest q hq number huses hnumber

/-- A candidate that stays is not in use. -/
theorem scan_stays {checked : Int} (hlt : mpid < pidchecked)
    (h : procs.foldlM visit (mpid, pidchecked) = .ok (mpid, checked)) :
    ∀ p ∈ procs, ¬ p.Uses mpid := by
  induction procs generalizing pidchecked with
  | nil => exact fun _ hp => absurd hp List.not_mem_nil
  | cons p after ih =>
      obtain ⟨⟨mpid', pidchecked'⟩, hvisit, hafter⟩ := scan_cons h
      obtain ⟨hmove, hlt', -, -⟩ := visit_ok hlt hvisit
      have hle := (scan_ok hlt' hafter).1
      rcases hmove with ⟨-, rfl, -⟩ | ⟨hnot, rfl⟩
      · omega
      · intro q hq
        rcases List.mem_cons.mp hq with rfl | hq
        · exact hnot
        · exact ih hlt' hafter q hq

/-- A candidate that is not in use stays. -/
theorem scan_unused (hnot : ∀ p ∈ procs, ¬ p.Uses mpid) (pidchecked : Int) :
    ∃ checked, procs.foldlM visit (mpid, pidchecked) = .ok (mpid, checked) := by
  induction procs generalizing pidchecked with
  | nil => exact ⟨pidchecked, rfl⟩
  | cons p after ih =>
      have hvisit : visit (mpid, pidchecked) p =
          .ok (mpid, lower mpid (lower mpid pidchecked p.p_pid) p.p_pgrp) :=
        if_neg (hnot p List.mem_cons_self)
      rw [List.foldlM_cons, hvisit]
      exact ih (fun q hq => hnot q (List.mem_cons_of_mem p hq)) _

/-- A scan ends with a number in use only if it misses it. -/
theorem scan_misses {found checked : Int} (hlt : mpid < pidchecked)
    (h : procs.foldlM visit (mpid, pidchecked) = .ok (found, checked)) {p : Entry}
    (hp : p ∈ procs) (huses : p.Uses found) : Misses procs mpid pidchecked := by
  induction procs generalizing mpid pidchecked with
  | nil => cases hp
  | cons q after ih =>
      obtain ⟨⟨mpid', pidchecked'⟩, hvisit, hafter⟩ := scan_cons h
      obtain ⟨hmove, hlt', hle', hseen⟩ := visit_ok hlt hvisit
      obtain ⟨hfound, hfoundlt, hchecked, -⟩ := scan_ok hlt' hafter
      by_cases hlater : p ∈ after
      · obtain ⟨before, r, rest, m, c, hsplit, hbefore, hmiss⟩ := ih hlt' hafter hlater
        refine ⟨q :: before, r, rest, m, c, by rw [hsplit]; rfl, ?_, hmiss⟩
        rw [List.foldlM_cons, hvisit]
        exact hbefore
      · -- the process itself has the number, and the candidate has just come to it
        have hpq : p = q := (List.mem_cons.mp hp).resolve_right hlater
        subst hpq
        have hsame : found = mpid' := by
          by_contra hne
          have := hseen found huses (by omega)
          omega
        subst hsame
        rcases hmove with ⟨hused, rfl, hnext⟩ | ⟨hnot, rfl⟩
        · exact ⟨[], p, after, mpid, pidchecked, rfl, rfl, hused, huses, hnext,
            scan_stays hlt' hafter⟩
        · exact absurd huses hnot

/-- A scan that misses a number ends with it. -/
theorem Misses.scan (h : Misses procs mpid pidchecked) :
    ∃ found checked, procs.foldlM visit (mpid, pidchecked) = .ok (found, checked) ∧
      ∃ p ∈ procs, p.Uses found := by
  obtain ⟨before, p, after, m, c, hsplit, hbefore, huses, hnext, hlt, hafter⟩ := h
  have hvisit : visit (m, c) p =
      .ok (m + 1, lower (m + 1) (lower (m + 1) c p.p_pid) p.p_pgrp) := by
    unfold visit
    dsimp only
    rw [if_pos huses, if_neg (by omega)]
  obtain ⟨checked, hrest⟩ := scan_unused hafter (lower (m + 1) (lower (m + 1) c p.p_pid) p.p_pgrp)
  refine ⟨m + 1, checked, ?_, p, ?_, hnext⟩
  · rw [hsplit, List.foldlM_append, hbefore]
    show (p :: after).foldlM visit (m, c) = _
    rw [List.foldlM_cons, hvisit]
    exact hrest
  · rw [hsplit]
    exact List.mem_append_right before List.mem_cons_self

end DiscoBsd.Proc
