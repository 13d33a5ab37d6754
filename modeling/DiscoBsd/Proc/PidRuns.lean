import DiscoBsd.Lib.Steps
import DiscoBsd.Proc.Pids

/-!
# Process ids over whole runs

The process lists under `newproc`, `exit`, `wait` and `setpgrp`. The search for an id ends in every
run. The id is unused as long as no number comes up behind the back of `pidchecked`: by `setpgrp`, or
by `exit`, which puts the resource usage over `p_pgrp`.
-/

namespace DiscoBsd.Proc

open DiscoBsd.Lib

variable {procs : List Entry} {mpid pidchecked : Int}

/-! ## The search -/

/-- All numbers from the first up to the last are in use. -/
def AllUsed (procs : List Entry) (first last : Int) : Prop :=
  first ≤ last ∧ ∀ number, first ≤ number → number < last → ∃ p ∈ procs, p.Uses number

theorem AllUsed.trans {first mid last : Int} (h : AllUsed procs first mid)
    (h' : AllUsed procs mid last) : AllUsed procs first last := by
  refine ⟨h.1.trans h'.1, fun number hfirst hlast => ?_⟩
  by_cases hmid : number < mid
  · exact h.2 number hfirst hmid
  · exact h'.2 number (by omega) hlast

theorem AllUsed.succ {p : Entry} (hp : p ∈ procs) (huses : p.Uses mpid) :
    AllUsed procs mpid (mpid + 1) :=
  ⟨by omega, fun number hfirst hlast => ⟨p, hp, by rwa [show number = mpid by omega]⟩⟩

/-- A process uses two numbers, its own and that of its group. -/
theorem AllUsed.length {first last : Int} (h : AllUsed procs first last) :
    last - first ≤ 2 * procs.length := by
  let numbers := procs.map Entry.p_pid ++ procs.map Entry.p_pgrp
  have hsub : Finset.Ico first last ⊆ numbers.toFinset := by
    intro number hnumber
    obtain ⟨hfirst, hlast⟩ := Finset.mem_Ico.mp hnumber
    obtain ⟨p, hp, huses⟩ := h.2 number hfirst hlast
    rw [List.mem_toFinset, List.mem_append]
    rcases huses with rfl | rfl
    · exact .inl (List.mem_map_of_mem hp)
    · exact .inr (List.mem_map_of_mem hp)
  have hcard := (Finset.card_le_card hsub).trans numbers.toFinset_card_le
  have hlength : numbers.length = 2 * procs.length := by
    rw [List.length_append, List.length_map, List.length_map]
    omega
  rw [Int.card_Ico, hlength] at hcard
  have := h.1
  omega

/-- A scan that is given up has gone over numbers in use only. -/
theorem scan_error {after : List Entry} (hsub : ∀ p ∈ after, p ∈ procs) {mpid' pidchecked' : Int}
    (hlt : mpid < pidchecked)
    (h : after.foldlM visit (mpid, pidchecked) = .error (mpid', pidchecked')) :
    AllUsed procs mpid mpid' ∧ mpid < mpid' ∧ pidchecked' ≤ mpid' := by
  induction after generalizing mpid pidchecked with
  | nil => cases h
  | cons p after ih =>
      have hp : p ∈ procs := hsub p List.mem_cons_self
      rw [List.foldlM_cons] at h
      cases hvisit : visit (mpid, pidchecked) p with
      | error e =>
          rw [hvisit] at h
          cases h
          obtain ⟨huses, rfl, rfl, hle⟩ := visit_error hvisit
          exact ⟨.succ hp huses, by omega, hle⟩
      | ok next =>
          rw [hvisit] at h
          obtain ⟨mid, checked⟩ := next
          obtain ⟨hmove, hlt', hle, -⟩ := visit_ok hlt hvisit
          obtain ⟨hused, hmid, hbound⟩ := ih (fun q hq => hsub q (List.mem_cons_of_mem p hq)) hlt' h
          rcases hmove with ⟨huses, rfl, -⟩ | ⟨-, rfl⟩
          · exact ⟨AllUsed.trans (.succ hp huses) hused, by omega, hbound⟩
          · exact ⟨hused, hmid, hbound⟩

theorem retry_wrap (scans : Nat) {mpid' pidchecked' : Int}
    (h : wrap mpid pidchecked = wrap mpid' pidchecked') :
    retry procs scans mpid pidchecked = retry procs scans mpid' pidchecked' := by
  cases scans with
  | zero => rfl
  | succ scans =>
      unfold retry
      rw [h]

/-- The search does not start over twice: there are fewer numbers in use than candidates. -/
theorem retry_ends_above (hfew : 2 * (procs.length : Int) < PID_MAX - PID_MIN) {scans : Nat}
    (hused : AllUsed procs PID_MIN mpid) (hscans : 2 * procs.length < scans + (mpid - PID_MIN)) :
    (retry procs scans mpid pidchecked).isSome := by
  have hlength := hused.length
  induction scans generalizing mpid pidchecked with
  | zero => omega
  | succ scans ih =>
      have hmax : ¬ PID_MAX ≤ mpid := by omega
      unfold retry wrap
      rw [if_neg hmax]
      dsimp only
      split
      · cases hscan : scan procs mpid with
        | ok found => rfl
        | error next =>
            obtain ⟨hnext, hlt, -⟩ := scan_error (fun p hp => hp) (by omega) hscan
            have hused' := hused.trans hnext
            exact ih hused' (by omega) hused'.length
      · rfl

/-- The search ends: it goes over numbers in use, each time further, starts over once at most, and
goes on from there. -/
theorem retry_ends (hfew : 2 * (procs.length : Int) < PID_MAX - PID_MIN) {scans : Nat} {first : Int}
    (hused : AllUsed procs first mpid) (hscans : 4 * procs.length + 2 < scans + (mpid - first)) :
    (retry procs scans mpid pidchecked).isSome := by
  have hlength := hused.length
  induction scans generalizing mpid pidchecked with
  | zero => omega
  | succ scans ih =>
      by_cases hmax : PID_MAX ≤ mpid
      · have hagain : wrap mpid pidchecked = wrap PID_MIN 0 := if_pos hmax
        rw [retry_wrap _ hagain]
        exact retry_ends_above hfew ⟨le_rfl, fun number hfirst hlast => by omega⟩ (by omega)
      unfold retry wrap
      rw [if_neg hmax]
      dsimp only
      split
      · cases hscan : scan procs mpid with
        | ok found => rfl
        | error next =>
            obtain ⟨hnext, hlt, -⟩ := scan_error (fun p hp => hp) (by omega) hscan
            have hused' := hused.trans hnext
            exact ih hused' (by omega) hused'.length
      · rfl

/-- Where a search ends: below `pidchecked`, without a scan, or with the outcome of a scan. -/
theorem retry_some {scans : Nat} {found checked : Int}
    (h : retry procs scans mpid pidchecked = some (found, checked)) :
    (wrap mpid pidchecked = (found, checked) ∧ found < checked) ∨
      ∃ start, Scans procs mpid pidchecked start ∧ start < PID_MAX ∧
        scan procs start = .ok (found, checked) := by
  induction scans generalizing mpid pidchecked with
  | zero => cases h
  | succ scans ih =>
      have hmax : (wrap mpid pidchecked).1 < PID_MAX := by
        unfold wrap
        split
        · decide
        · dsimp only
          omega
      unfold retry at h
      split at h
      · rename_i hle
        cases hscan : scan procs (wrap mpid pidchecked).1 with
        | ok next =>
            rw [hscan] at h
            cases h
            exact .inr ⟨_, .now hle, hmax, hscan⟩
        | error next =>
            rw [hscan] at h
            obtain ⟨mpid', pidchecked'⟩ := next
            obtain ⟨-, -, hle'⟩ := scan_error (fun p hp => hp) hmax hscan
            rcases ih h with ⟨hwrap, hlt⟩ | ⟨start, hstart, hlt, hfound⟩
            · -- the next number had to be looked up
              unfold wrap at hwrap
              split at hwrap
              · cases hwrap
                exact absurd hlt (by decide)
              · cases hwrap
                omega
            · exact .inr ⟨start, .later hle hscan hstart, hlt, hfound⟩
      · rename_i hlt
        have hwrap := Option.some.inj h
        rw [hwrap] at hlt
        exact .inl ⟨hwrap, by omega⟩

/-- A scan that ends is the last of the search. -/
theorem Scans.last {start found checked : Int} (hstart : Scans procs mpid pidchecked start)
    (hscan : scan procs start = .ok (found, checked)) {scans : Nat} {result : Int × Int}
    (h : retry procs scans mpid pidchecked = some result) : result = (found, checked) := by
  induction hstart generalizing scans with
  | now hle =>
      cases scans with
      | zero => cases h
      | succ scans =>
          unfold retry at h
          rw [if_pos hle, hscan] at h
          exact (Option.some.inj h).symm
  | later hle herror _ ih =>
      cases scans with
      | zero => cases h
      | succ scans =>
          unfold retry at h
          rw [if_pos hle, herror] at h
          exact ih hscan h

/-! ## The process lists -/

/-- The value of a `short`. -/
def short (value : Int) : Int := value.bmod 65536

/-- The processes and the free slots, and what `newproc` remembers. -/
structure Table where
  mpid : Int
  pidchecked : Int
  allproc : List Entry
  zombproc : List Entry
  freeproc : List Nat

namespace Table

/-- All processes, as they are scanned. -/
def entries (t : Table) : List Entry := t.allproc ++ t.zombproc

/-- The id for a child and the new `pidchecked`. By `newpid_isSome` so many scans are enough. -/
def newpid (t : Table) : Option (Int × Int) :=
  retry t.entries (4 * t.entries.length + 3) (t.mpid + 1) t.pidchecked

/-- The number is not looked up before a process gets it as its id. -/
def Vouched (t : Table) (number : Int) : Prop := t.mpid < number ∧ number < t.pidchecked

/-- The last scan for the next id misses a number. -/
def Missed (t : Table) : Prop :=
  ∃ start, Scans t.entries (t.mpid + 1) t.pidchecked start ∧ Misses t.entries start PID_MAX

/-- The process in a slot, if it is not a zombie. -/
def live (t : Table) (slot : Nat) : Option Entry := t.allproc.find? fun p => p.slot = slot

/-- The newest process with the id: `pidhash` has them in the order of `allproc`. -/
def pfind (t : Table) (pid : Int) : Option Entry := t.allproc.find? fun p => p.p_pid = pid

/-- Without room in the swap space the child is put back. -/
def newproc (t : Table) (parent : Entry) (child : Nat) (free : List Nat) (room : Bool) :
    Option Table :=
  t.newpid.map fun (mpid, pidchecked) =>
    if room then
      ⟨mpid, pidchecked, ⟨child, mpid, parent.p_pgrp⟩ :: t.allproc, t.zombproc, free⟩
    else { t with mpid, pidchecked }

/-- The resource usage is written over `p_pgrp`. -/
def exit (t : Table) (p : Entry) (p_ru : Int) : Table :=
  { t with
    allproc := t.allproc.eraseP fun q => q.slot = p.slot
    zombproc := { p with p_pgrp := short p_ru } :: t.zombproc }

/-- The zombie that `wait` has found. -/
def wait1 (t : Table) (p : Entry) : Table :=
  { t with
    zombproc := t.zombproc.eraseP fun q => q.slot = p.slot
    freeproc := p.slot :: t.freeproc }

/-- `setpgrp` of a process that may set the group of the other. -/
def setpgrp (t : Table) (caller : Entry) (pid pgrp : Int) : Table :=
  match t.pfind (if pid = 0 then caller.p_pid else pid) with
  | none => t
  | some p =>
      { t with
        allproc := t.allproc.map fun q =>
          if q.slot = p.slot then { q with p_pgrp := short pgrp } else q }

end Table

/-- A call of the process in a slot. -/
inductive Event where
  | fork (parent : Nat) (room : Bool)
  | exit (p : Nat) (p_ru : Int)
  | wait (zombie : Nat)
  | setpgrp (caller : Nat) (pid pgrp : Int) (permitted : Bool)

namespace Table

/-- A call; init does not exit, and `fork` needs a free slot. -/
def step (t : Table) : Event → Option Table
  | .fork parent room =>
      (t.live parent).bind fun p =>
        match t.freeproc with
        | [] => some t
        | child :: free => t.newproc p child free room
  | .exit p p_ru =>
      (t.live p).bind fun p => if p.p_pid = 1 then none else some (t.exit p p_ru)
  | .wait zombie => (t.zombproc.find? fun p => p.slot = zombie).map t.wait1
  | .setpgrp caller pid pgrp permitted =>
      (t.live caller).map fun p => if permitted then t.setpgrp p pid pgrp else t

/-- The first process, and the other slots in their order. -/
def boot (nproc : Nat) : Table := ⟨0, 0, [⟨0, 0, 0⟩], [], (List.range nproc).tail⟩

variable {t : Table} {pid checked : Int}

/-! ## One id -/

theorem newpid_isSome (hfew : 2 * (t.entries.length : Int) < PID_MAX - PID_MIN) :
    t.newpid.isSome :=
  retry_ends hfew ⟨le_refl (t.mpid + 1), fun number hfirst hlast => by omega⟩ (by omega)

theorem wrap_below {mpid pidchecked : Int} (hwrap : wrap (mpid + 1) pidchecked = (pid, checked))
    (hlt : pid < checked) : pid = mpid + 1 ∧ checked = pidchecked := by
  unfold wrap at hwrap
  split at hwrap
  · cases hwrap
    exact absurd hlt (by decide)
  · cases hwrap
    exact ⟨rfl, rfl⟩

/-- No number of a process goes unchecked. -/
def Sound (t : Table) : Prop := ∀ p ∈ t.entries, ∀ number, p.Uses number → ¬ t.Vouched number

/-- The id is unused if and only if the last scan misses no number. -/
theorem Sound.unused_iff (h : t.Sound) (hnew : t.newpid = some (pid, checked)) :
    (∀ p ∈ t.entries, ¬ p.Uses pid) ↔ ¬ t.Missed := by
  constructor
  · rintro hunused ⟨start, hstart, hmiss⟩
    obtain ⟨found, c, hscan, p, hp, huses⟩ := hmiss.scan
    cases hstart.last hscan hnew
    exact hunused p hp huses
  · intro hmiss p hp huses
    rcases retry_some hnew with ⟨hwrap, hlt⟩ | ⟨start, hstart, hlt, hscan⟩
    · obtain ⟨rfl, rfl⟩ := wrap_below hwrap hlt
      exact h p hp _ huses ⟨by omega, hlt⟩
    · exact hmiss ⟨start, hstart, scan_misses hlt hscan hp huses⟩

/-- Between the id and the new `pidchecked` there is no number of a process. -/
theorem Sound.newpid (h : t.Sound) (hnew : t.newpid = some (pid, checked)) {p : Entry}
    (hp : p ∈ t.entries) {number : Int} (huses : p.Uses number) :
    ¬ (pid < number ∧ number < checked) := by
  rintro ⟨habove, hbelow⟩
  rcases retry_some hnew with ⟨hwrap, hlt⟩ | ⟨start, hstart, hlt, hscan⟩
  · obtain ⟨rfl, rfl⟩ := wrap_below hwrap hlt
    exact h p hp number huses ⟨by omega, hbelow⟩
  · have := (scan_ok hlt hscan).2.2.2 p hp number huses habove
    omega

/-! ## One call -/

theorem mem_live {slot : Nat} {p : Entry} (h : t.live slot = some p) : p ∈ t.entries :=
  List.mem_append_left _ (List.mem_of_find?_eq_some h)

/-- A call does not put a number where it goes unchecked: `exit` with the resource usage, `setpgrp`
with the group. -/
def Kept (t : Table) : Event → Prop
  | .exit _ p_ru => ¬ t.Vouched (short p_ru)
  | .setpgrp caller pid pgrp permitted =>
      permitted = true → ∀ p, t.live caller = some p →
        (t.pfind (if pid = 0 then p.p_pid else pid)).isSome → ¬ t.Vouched (short pgrp)
  | _ => True

theorem Sound.newproc (h : t.Sound) {parent : Entry} (hparent : parent ∈ t.entries) {child : Nat}
    {free : List Nat} {room : Bool} {t' : Table}
    (hcall : t.newproc parent child free room = some t') : t'.Sound := by
  obtain ⟨⟨pid, checked⟩, hnew, rfl⟩ := Option.map_eq_some_iff.mp hcall
  cases room with
  | false => exact fun p hp number huses => h.newpid hnew hp huses
  | true =>
      intro p hp number huses
      rcases List.mem_cons.mp hp with rfl | hp
      · -- the child, in the group of its parent
        rcases huses with rfl | rfl
        · exact fun hin => absurd hin.1 (lt_irrefl pid)
        · exact h.newpid hnew hparent (.inr rfl)
      · exact h.newpid hnew hp huses

theorem Sound.exit (h : t.Sound) {p : Entry} (hp : p ∈ t.entries) {p_ru : Int}
    (hkept : ¬ t.Vouched (short p_ru)) : (t.exit p p_ru).Sound := by
  intro q hq number huses
  rcases List.mem_append.mp hq with hq | hq
  · exact h q (List.mem_append_left _ (List.mem_of_mem_eraseP hq)) number huses
  · rcases List.mem_cons.mp hq with rfl | hq
    · rcases huses with rfl | rfl
      · exact h p hp p.p_pid (.inl rfl)
      · exact hkept
    · exact h q (List.mem_append_right _ hq) number huses

theorem Sound.wait1 (h : t.Sound) (p : Entry) : (t.wait1 p).Sound := by
  intro q hq number huses
  rcases List.mem_append.mp hq with hq | hq
  · exact h q (List.mem_append_left _ hq) number huses
  · exact h q (List.mem_append_right _ (List.mem_of_mem_eraseP hq)) number huses

theorem Sound.setpgrp (h : t.Sound) (caller : Entry) {pid pgrp : Int}
    (hkept : (t.pfind (if pid = 0 then caller.p_pid else pid)).isSome → ¬ t.Vouched (short pgrp)) :
    (t.setpgrp caller pid pgrp).Sound := by
  unfold Table.setpgrp
  cases hfind : t.pfind (if pid = 0 then caller.p_pid else pid) with
  | none => exact h
  | some p =>
      rw [hfind] at hkept
      intro q hq number huses
      rcases List.mem_append.mp hq with hq | hq
      · obtain ⟨r, hr, rfl⟩ := List.mem_map.mp hq
        have hold := h r (List.mem_append_left _ hr)
        split at huses
        · rcases huses with rfl | rfl
          · exact hold r.p_pid (.inl rfl)
          · exact hkept rfl
        · exact hold number huses
      · exact h q (List.mem_append_right _ hq) number huses

theorem Sound.step (h : t.Sound) {e : Event} (hkept : t.Kept e) {t' : Table}
    (hstep : t.step e = some t') : t'.Sound := by
  cases e with
  | fork parent room =>
      obtain ⟨p, hp, hcall⟩ := Option.bind_eq_some_iff.mp hstep
      split at hcall
      · cases hcall
        exact h
      · exact h.newproc (mem_live hp) hcall
  | exit p p_ru =>
      obtain ⟨q, hq, hcall⟩ := Option.bind_eq_some_iff.mp hstep
      split at hcall
      · cases hcall
      · cases hcall
        exact h.exit (mem_live hq) hkept
  | wait zombie =>
      obtain ⟨q, -, rfl⟩ := Option.map_eq_some_iff.mp hstep
      exact h.wait1 q
  | setpgrp caller pid pgrp permitted =>
      obtain ⟨q, hq, rfl⟩ := Option.map_eq_some_iff.mp hstep
      cases permitted with
      | false => exact h
      | true => exact h.setpgrp q (hkept rfl q hq)

/-- The slots, used and free. -/
def slots (t : Table) : Nat := t.allproc.length + t.zombproc.length + t.freeproc.length

theorem slots_step {e : Event} {t' : Table} (hstep : t.step e = some t') : t'.slots = t.slots := by
  have herase : ∀ (procs : List Entry) (p : Entry), p ∈ procs →
      (procs.eraseP fun q => q.slot = p.slot).length + 1 = procs.length := by
    intro procs p hp
    have hpos := List.length_pos_of_mem hp
    rw [List.length_eraseP_of_mem hp (by simp)]
    omega
  unfold slots
  cases e with
  | fork parent room =>
      obtain ⟨p, hp, hcall⟩ := Option.bind_eq_some_iff.mp hstep
      split at hcall
      · cases hcall
        rfl
      · rename_i child free hfree
        obtain ⟨⟨pid, checked⟩, hnew, rfl⟩ := Option.map_eq_some_iff.mp hcall
        cases room with
        | false => rfl
        | true =>
            rw [hfree]
            simp only [if_true, List.length_cons]
            omega
  | exit p p_ru =>
      obtain ⟨q, hq, hcall⟩ := Option.bind_eq_some_iff.mp hstep
      split at hcall
      · cases hcall
      · cases hcall
        have := herase t.allproc q (List.mem_of_find?_eq_some hq)
        simp only [Table.exit, List.length_cons]
        omega
  | wait zombie =>
      obtain ⟨q, hq, rfl⟩ := Option.map_eq_some_iff.mp hstep
      have := herase t.zombproc q (List.mem_of_find?_eq_some hq)
      simp only [Table.wait1, List.length_cons]
      omega
  | setpgrp caller pid pgrp permitted =>
      obtain ⟨q, -, rfl⟩ := Option.map_eq_some_iff.mp hstep
      cases permitted with
      | false => rfl
      | true =>
          simp only [if_true, Table.setpgrp]
          split
          · rfl
          · simp only [List.length_map]

/-! ## Runs -/

/-- In every run the search for an id ends. In a run whose calls put no number where it goes unchecked,
the id that comes next is neither the id nor the group of a process or a zombie, if and only if the
last scan misses no number. -/
theorem pids_unused {nproc : Nat} (hfew : 2 * (nproc : Int) < PID_MAX - PID_MIN)
    {events : List Event} (hrun : Steps (Steps.Of step) (boot nproc) events t) :
    ∃ pid checked, t.newpid = some (pid, checked) ∧
      (Steps (fun t e t' => t.Kept e ∧ t.step e = some t') (boot nproc) events t →
        ((∀ p ∈ t.entries, p.p_pid ≠ pid ∧ p.p_pgrp ≠ pid) ↔ ¬ t.Missed)) := by
  have hslots : t.slots = (boot nproc).slots :=
    hrun.invariant (fun t => t.slots = (boot nproc).slots)
      (fun _ _ _ h hstep => (slots_step hstep).trans h) rfl
  have hlength : 2 * (t.entries.length : Int) < PID_MAX - PID_MIN := by
    have hboot : (boot nproc).slots = 1 + 0 + (nproc - 1) := by
      simp only [slots, boot, List.length_tail, List.length_range, List.length_cons, List.length_nil]
    have hentries : t.entries.length = t.allproc.length + t.zombproc.length := List.length_append
    have hbound : PID_MAX - PID_MIN = 29900 := rfl
    rw [hboot, slots] at hslots
    omega
  obtain ⟨⟨pid, checked⟩, hnew⟩ := Option.isSome_iff_exists.mp (newpid_isSome hlength)
  refine ⟨pid, checked, hnew, fun hkept => ?_⟩
  have hsound : t.Sound := by
    refine hkept.invariant Sound (fun _ _ _ h hstep => h.step hstep.1 hstep.2) ?_
    rintro p - number - ⟨habove, hbelow⟩
    exact absurd (habove.trans hbelow) (lt_irrefl 0)
  rw [← hsound.unused_iff hnew]
  exact forall₂_congr fun p _ => not_or.symm

/-- Init, and its child as the leader of a group. -/
theorem pids_unused_leader :
    ∃ t, Steps (Steps.Of step) (boot 4) [.fork 0 true, .fork 1 true, .setpgrp 2 0 2 true] t ∧
      ∃ pid checked, t.newpid = some (pid, checked) ∧
        ∀ p ∈ t.entries, p.p_pid ≠ pid ∧ p.p_pgrp ≠ pid := by
  have hrun : Steps (Steps.Of step) (boot 4) [.fork 0 true, .fork 1 true, .setpgrp 2 0 2 true]
      ⟨2, 30000, [⟨2, 2, 2⟩, ⟨1, 1, 0⟩, ⟨0, 0, 0⟩], [], [3]⟩ := .of_foldlM rfl
  obtain ⟨pid, checked, hnew, hunused⟩ := pids_unused (by decide) hrun
  refine ⟨_, hrun, pid, checked, hnew, (hunused ?_).mpr ?_⟩
  · refine .cons ⟨trivial, rfl⟩ (.cons ⟨trivial, rfl⟩ (.cons ⟨fun _ p _ _ => ?_, rfl⟩ (.refl _)))
    exact fun hin => absurd hin.1 (by decide)
  · -- 3 is below `pidchecked`
    rintro ⟨start, hstart, -⟩
    cases hstart with
    | now hle => exact absurd hle (by decide)
    | later hle => exact absurd hle (by decide)

/-- A child that exits at once and is waited for, many times. -/
def cycles (parent child : Nat) : Nat → List Event
  | 0 => []
  | times + 1 => [.fork parent true, .exit child 0, .wait child] ++ cycles parent child times

theorem newpid_below (hmax : t.mpid + 1 < PID_MAX) (hbelow : t.mpid + 1 < t.pidchecked) :
    t.newpid = some (t.mpid + 1, t.pidchecked) := by
  have hwrap : wrap (t.mpid + 1) t.pidchecked = (t.mpid + 1, t.pidchecked) := if_neg (by omega)
  unfold newpid retry
  rw [hwrap, if_neg (by dsimp only; omega)]

/-- A child leaves the lists as they were, and the next number. -/
theorem run_cycle {parent child : Nat} {all : List Entry} {free : List Nat} {first : Int} {p : Entry}
    (hparent : all.find? (fun p => p.slot = parent) = some p) (hpid : 1 ≤ first)
    (hmax : first + 1 < PID_MAX) :
    Steps (Steps.Of step) ⟨first, PID_MAX, all, [], child :: free⟩
      [.fork parent true, .exit child 0, .wait child]
      ⟨first + 1, PID_MAX, all, [], child :: free⟩ := by
  have hfork : step ⟨first, PID_MAX, all, [], child :: free⟩ (.fork parent true) =
      some ⟨first + 1, PID_MAX, ⟨child, first + 1, p.p_pgrp⟩ :: all, [], free⟩ := by
    have hnew : newpid ⟨first, PID_MAX, all, [], child :: free⟩ = some (first + 1, PID_MAX) :=
      newpid_below hmax hmax
    unfold step live
    dsimp only
    rw [hparent]
    unfold newproc
    rw [Option.bind_some, hnew]
    rfl
  have hexit : step ⟨first + 1, PID_MAX, ⟨child, first + 1, p.p_pgrp⟩ :: all, [], free⟩
      (.exit child 0) =
      some ⟨first + 1, PID_MAX, all, [⟨child, first + 1, 0⟩], free⟩ := by
    have hnot : ¬ first + 1 = 1 := by omega
    simp [step, live, Table.exit, hnot, short]
  have hwait : step ⟨first + 1, PID_MAX, all, [⟨child, first + 1, 0⟩], free⟩ (.wait child) =
      some ⟨first + 1, PID_MAX, all, [], child :: free⟩ := by
    simp [step, Table.wait1]
  exact .cons hfork (.cons hexit (.cons hwait (.refl _)))

theorem run_cycles {parent child : Nat} {all : List Entry} {free : List Nat} {p : Entry}
    (hparent : all.find? (fun p => p.slot = parent) = some p) (times : Nat) {first : Int}
    (hpid : 1 ≤ first) (hmax : first + times < PID_MAX) :
    Steps (Steps.Of step) ⟨first, PID_MAX, all, [], child :: free⟩ (cycles parent child times)
      ⟨first + times, PID_MAX, all, [], child :: free⟩ := by
  induction times generalizing first with
  | zero =>
      rw [Int.ofNat_zero, Int.add_zero]
      exact .refl _
  | succ times ih =>
      have hlast : first + (times + 1 : Nat) = first + 1 + times := by omega
      rw [hlast]
      exact (run_cycle hparent hpid (by omega)).append (ih (by omega) (by omega))

/-- The leader 100 of a group has a child 101 and is gone. When the numbers have wrapped around, the
scan moves on from the group of the child to its id. -/
def wrapping : List Event :=
  [.fork 0 true] ++ cycles 1 2 98 ++
    [.fork 1 true, .setpgrp 2 0 100 true, .fork 2 true, .exit 2 0, .wait 2] ++ cycles 1 2 29898

theorem pid_given_twice :
    ∃ t p checked, Steps (Steps.Of step) (boot 4) wrapping t ∧ p ∈ t.allproc ∧
      t.newpid = some (p.p_pid, checked) := by
  have hfirst : Steps (Steps.Of step) (boot 4) [.fork 0 true]
      ⟨1, PID_MAX, [⟨1, 1, 0⟩, ⟨0, 0, 0⟩], [], [2, 3]⟩ := .of_foldlM rfl
  have hbefore : Steps (Steps.Of step) ⟨1, PID_MAX, [⟨1, 1, 0⟩, ⟨0, 0, 0⟩], [], [2, 3]⟩
      (cycles 1 2 98) ⟨99, PID_MAX, [⟨1, 1, 0⟩, ⟨0, 0, 0⟩], [], [2, 3]⟩ :=
    run_cycles rfl 98 le_rfl (by decide)
  have hgroup : Steps (Steps.Of step) ⟨99, PID_MAX, [⟨1, 1, 0⟩, ⟨0, 0, 0⟩], [], [2, 3]⟩
      [.fork 1 true, .setpgrp 2 0 100 true, .fork 2 true, .exit 2 0, .wait 2]
      ⟨101, PID_MAX, [⟨3, 101, 100⟩, ⟨1, 1, 0⟩, ⟨0, 0, 0⟩], [], [2]⟩ := .of_foldlM rfl
  have hafter : Steps (Steps.Of step)
      ⟨101, PID_MAX, [⟨3, 101, 100⟩, ⟨1, 1, 0⟩, ⟨0, 0, 0⟩], [], [2]⟩ (cycles 1 2 29898)
      ⟨29999, PID_MAX, [⟨3, 101, 100⟩, ⟨1, 1, 0⟩, ⟨0, 0, 0⟩], [], [2]⟩ :=
    run_cycles rfl 29898 (by decide) (by decide)
  exact ⟨_, ⟨3, 101, 100⟩, PID_MAX, ((hfirst.append hbefore).append hgroup).append hafter,
    List.mem_cons_self, rfl⟩

end Table

end DiscoBsd.Proc
