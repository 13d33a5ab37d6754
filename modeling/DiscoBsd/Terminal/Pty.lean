import DiscoBsd.Kern.Uio
import DiscoBsd.Terminal.Input

/-!
# Writes to the master side of a pseudo-terminal

`ptcwrite` copies the user's bytes into a buffer on its stack, a chunk at a time, and hands them to
`ttyinput`, as if they were typed. It sleeps while the slave is not open or has no room, and goes on
from the top when it wakes up: the rest of the chunk is then in the buffer and no longer in
`uio_resid`. The terminal is a parameter here; between a sleep and the next wakeup it changes in any
way. `passed` records the bytes handed to `ttyinput`.

`ptcwrite_accounts` is the result, and `ptcwrite_loses` the write that loses its last chunk.
-/

namespace DiscoBsd.Terminal

open DiscoBsd.Kern

/-- The size of the buffer on the stack. -/
def BUFSIZ : Nat := 100

inductive PtyError where
  | ok | eio | ewouldblock
deriving DecidableEq

/-- What the master side reads and calls of the terminal: the bits TS_ISOPEN, TS_CARR_ON, PF_REMOTE
and RAW or CBREAK, the lengths of the two input queues, `ttyinput`, and for remote mode `b_to_q`
to the canonical queue; the NUL that is put behind the record then is left out. -/
structure Slave (T : Type*) where
  isopen : T → Bool
  carrOn : T → Bool
  remote : T → Bool
  rawOrCbreak : T → Bool
  rawcc : T → Nat
  cancc : T → Nat
  ttyinput : T → UInt8 → T
  b_to_q : T → List UInt8 → T
  ttyinput_isopen : ∀ tp c, isopen (ttyinput tp c) = isopen tp

/-- A write in progress: the buffers still in user space, the rest of the chunk, the number of bytes
passed, and these bytes. -/
structure Write where
  uio : List (List UInt8)
  held : List UInt8
  cnt : Nat
  passed : List UInt8

/-- Where a stretch of the write ends. -/
inductive Outcome (T : Type*) where
  | returned (error : PtyError) (uio_resid : Nat) (passed : List UInt8)
  | sleeps (tp : T) (w : Write)

namespace Slave

variable {T : Type*} (sl : Slave T)

/-- No room in the input queues. -/
def full (tp : T) : Bool :=
  decide (TTYHOG - 2 ≤ sl.rawcc tp + sl.cancc tp) &&
    (decide (0 < sl.cancc tp) || sl.rawOrCbreak tp)

/-- The label `block`. -/
def block (ndelay : Bool) (tp : T) (w : Write) : Outcome T :=
  if sl.carrOn tp = false then .returned .eio (resid w.uio) w.passed
  else if ndelay then
    .returned (if w.cnt = 0 then .ewouldblock else .ok) (resid w.uio + w.held.length) w.passed
  else .sleeps tp w

/-- The inner loop: pass bytes while there is room. -/
def pass (tp : T) (w : Write) : List UInt8 → T × Write
  | [] => (tp, { w with held := [] })
  | c :: cs =>
      if sl.full tp then (tp, { w with held := c :: cs })
      else pass (sl.ttyinput tp c) { w with cnt := w.cnt + 1, passed := w.passed ++ [c] } cs

end Slave

/-- Copy in a chunk of `n` bytes, unless one is held. -/
def Write.fetch (w : Write) (n : Nat) : Write :=
  if w.held = [] then { w with uio := (uiomove n w.uio).2, held := (uiomove n w.uio).1 } else w

/-- The bytes still to be passed. -/
def Write.left (w : Write) : Nat := resid w.uio + w.held.length

namespace Slave

variable {T : Type*} (sl : Slave T) {tp : T} {w : Write}

theorem left_fetch (w : Write) (n : Nat) : (w.fetch n).left = w.left := by
  unfold Write.fetch Write.left
  split
  · rename_i hheld
    rw [resid_uiomove, hheld, List.length_nil, Nat.add_zero]
  · rfl

theorem held_fetch {n : Nat} (hn : 0 < n) (hresid : resid w.uio ≠ 0) : (w.fetch n).held ≠ [] := by
  unfold Write.fetch
  split
  · have hlength := (uiomove_spec n w.uio).2
    intro hnil
    rw [show (uiomove n w.uio).1 = [] from hnil, List.length_nil] at hlength
    omega
  · assumption

/-- The inner loop passes bytes from the front of the chunk. -/
theorem pass_spec (tp : T) (w : Write) (cs : List UInt8) :
    (sl.pass tp w cs).2.uio = w.uio ∧
      (sl.pass tp w cs).2.passed ++ (sl.pass tp w cs).2.held = w.passed ++ cs := by
  induction cs generalizing tp w with
  | nil => simp [pass]
  | cons c cs ih =>
      unfold pass
      split
      · exact ⟨rfl, rfl⟩
      · simpa using ih (sl.ttyinput tp c) { w with cnt := w.cnt + 1, passed := w.passed ++ [c] }

theorem left_pass {n : Nat} (hresid : resid w.uio ≠ 0) (hn : 0 < n)
    (hheld : (sl.pass tp (w.fetch n) (w.fetch n).held).2.held = []) :
    (sl.pass tp (w.fetch n) (w.fetch n).held).2.left < w.left := by
  have hpos := List.length_pos_iff.mpr (held_fetch hn hresid)
  have huio := (sl.pass_spec tp (w.fetch n) (w.fetch n).held).1
  rw [← left_fetch w n, Write.left, Write.left, hheld, huio, List.length_nil]
  omega

/-- The outer loop for a terminal that is not in remote mode. -/
def writeLoop (ndelay : Bool) (tp : T) (w : Write) : Outcome T :=
  if _h : resid w.uio = 0 then .returned .ok (resid w.uio) w.passed
  else
    let chunk := w.fetch (min (resid w.uio) BUFSIZ)
    if w.held = [] ∧ sl.isopen tp = false then .returned .eio (resid chunk.uio) chunk.passed
    else
      let res := sl.pass tp chunk chunk.held
      if _hheld : res.2.held ≠ [] then sl.block ndelay res.1 res.2
      else writeLoop ndelay res.1 res.2
termination_by w.left
decreasing_by
  have hsize : 0 < BUFSIZ := by decide
  exact sl.left_pass _h (by omega) (not_not.mp _hheld)

/-- How much the loop for remote mode copies in at once. -/
def remoteChunk (tp : T) (w : Write) : Nat :=
  min (min (resid w.uio) BUFSIZ) (TTYHOG - 1 - sl.cancc tp)

theorem remote_pos (h : resid w.uio ≠ 0 ∧ sl.cancc tp < TTYHOG - 1) :
    0 < (w.fetch (sl.remoteChunk tp w)).held.length := by
  have hsize : 0 < BUFSIZ := by decide
  have hn : 0 < sl.remoteChunk tp w := by
    rw [remoteChunk]
    omega
  exact List.length_pos_iff.mpr (held_fetch hn h.1)

/-- The loop for remote mode, which puts the bytes into the canonical queue itself. -/
def remoteLoop (tp : T) (w : Write) : Outcome T :=
  if _h : resid w.uio ≠ 0 ∧ sl.cancc tp < TTYHOG - 1 then
    let chunk := w.fetch (sl.remoteChunk tp w)
    if w.held = [] ∧ sl.isopen tp = false then .returned .eio (resid chunk.uio) chunk.passed
    else remoteLoop (sl.b_to_q tp chunk.held) { chunk with held := [] }
  else .returned .ok (resid w.uio) w.passed
termination_by w.left
decreasing_by
  have hpos := sl.remote_pos _h
  rw [← left_fetch w (sl.remoteChunk tp w)]
  simp only [Write.left, List.length_nil]
  omega

/-- The label `again`. -/
def again (ndelay : Bool) (tp : T) (w : Write) : Outcome T :=
  if sl.isopen tp = false then sl.block ndelay tp w
  else if sl.remote tp then
    if sl.cancc tp ≠ 0 then sl.block ndelay tp w else sl.remoteLoop tp w
  else sl.writeLoop ndelay tp w

/-- The call, given the terminal at its start and at each wakeup; nothing when it still sleeps. -/
def resume (ndelay : Bool) (w : Write) (tp : T) (wakes : List T) :
    Option (PtyError × Nat × List UInt8) :=
  match sl.again ndelay tp w, wakes with
  | .returned error uio_resid passed, _ => some (error, uio_resid, passed)
  | .sleeps _ _, [] => none
  | .sleeps _ w', tp' :: wakes => resume ndelay w' tp' wakes

def ptcwrite (ndelay : Bool) (uio : List (List UInt8)) (tp : T) (wakes : List T) :
    Option (PtyError × Nat × List UInt8) :=
  sl.resume ndelay ⟨uio, [], 0, []⟩ tp wakes

/-- The states in which the write goes on from the label `again`. -/
def entries (ndelay : Bool) (w : Write) (tp : T) (wakes : List T) : List (T × Write) :=
  match sl.again ndelay tp w, wakes with
  | .sleeps _ w', tp' :: wakes => (tp, w) :: entries ndelay w' tp' wakes
  | _, _ => [(tp, w)]

/-- The write does not sleep again at once. -/
def Goes (tp : T) : Prop := sl.isopen tp = true ∧ ¬(sl.remote tp = true ∧ sl.cancc tp ≠ 0)

/-- When the write goes on with bytes still to be passed, the terminal is not in remote mode and a
part of the bytes is still in user space. -/
def Safe (e : T × Write) : Prop :=
  sl.Goes e.1 → e.2.left ≠ 0 → sl.remote e.1 = false ∧ resid e.2.uio ≠ 0

/-- The terminal when the queues fill up before all of the bytes are passed. -/
def stalled (tp : T) : List UInt8 → Option T
  | [] => none
  | c :: cs => if sl.full tp then some tp else stalled (sl.ttyinput tp c) cs

/-! ## What a stretch does -/

/-- The bytes of the request: passed, in the buffer, and in user space. -/
def Accounted (buffer : List UInt8) (w : Write) : Prop := w.passed ++ w.held ++ w.uio.flatten = buffer

variable {buffer : List UInt8}

theorem accounted_fetch (h : Accounted buffer w) (n : Nat) : Accounted buffer (w.fetch n) := by
  unfold Write.fetch
  split
  · rename_i hheld
    rw [Accounted, hheld, List.append_nil] at h
    rw [Accounted, List.append_assoc, (uiomove_spec n w.uio).1]
    exact h
  · exact h

theorem accounted_pass (h : Accounted buffer w) (tp : T) :
    Accounted buffer (sl.pass tp w w.held).2 := by
  obtain ⟨huio, hbytes⟩ := sl.pass_spec tp w w.held
  rw [Accounted, hbytes, huio]
  exact h

theorem left_eq_zero (h : Accounted buffer w) : w.left = 0 ↔ w.passed = buffer := by
  rw [Accounted] at h
  rw [Write.left, resid_eq, ← h, List.append_assoc, ← List.length_append]
  constructor
  · intro hzero
    have : w.uio.flatten = [] ∧ w.held = [] := by
      rw [List.length_append, Nat.add_eq_zero_iff, List.length_eq_zero_iff,
        List.length_eq_zero_iff] at hzero
      exact hzero
    simp [this]
  · intro heq
    have hlength := congrArg List.length heq
    simp only [List.length_append] at hlength ⊢
    omega

/-- A blocking write that does not return 0 from its outer loop is asleep with the rest of the
request. -/
theorem writeLoop_spec (tp : T) (h : Accounted buffer w) :
    match sl.writeLoop false tp w with
    | .returned error _ passed =>
        error = .ok → if resid w.uio = 0 then passed = w.passed else passed = buffer
    | .sleeps _ w' => resid w.uio ≠ 0 ∧ Accounted buffer w' := by
  induction tp, w using writeLoop.induct sl with
  | case1 tp w hzero =>
      rw [writeLoop, dif_pos hzero]
      simp [hzero]
  | case2 tp w hsome hclosed =>
      rw [writeLoop, dif_neg hsome, if_pos hclosed]
      simp
  | case3 tp w hsome chunk hopen res hheld =>
      have hres : Accounted buffer res.2 := sl.accounted_pass (accounted_fetch h _) tp
      rw [writeLoop, dif_neg hsome, if_neg hopen, dif_pos hheld, block]
      by_cases hcarr : sl.carrOn res.1 = false
      · rw [if_pos hcarr]
        exact nofun
      · rw [if_neg hcarr]
        exact ⟨hsome, hres⟩
  | case4 tp w hsome chunk hopen res hheld ih =>
      have hres : Accounted buffer res.2 := sl.accounted_pass (accounted_fetch h _) tp
      rw [writeLoop, dif_neg hsome, if_neg hopen, dif_neg hheld]
      have hrest := ih hres
      split
      · rename_i error uio_resid passed hret
        rw [hret] at hrest
        intro hok
        rw [if_neg hsome]
        have hpassed := hrest hok
        split at hpassed
        · rename_i hzero
          rw [hpassed]
          refine (left_eq_zero hres).mp ?_
          rw [Write.left, hzero, not_not.mp hheld, List.length_nil]
        · exact hpassed
      · rename_i tp' w' hsleep
        rw [hsleep] at hrest
        exact ⟨hsome, hrest.2⟩

theorem passed_fetch (w : Write) (n : Nat) : (w.fetch n).passed = w.passed := by
  unfold Write.fetch
  split <;> rfl

/-- In remote mode nothing is passed to `ttyinput`, and the write does not sleep. -/
theorem remoteLoop_passed (tp : T) (w : Write) : ∃ error uio_resid, uio_resid ≤ resid w.uio ∧
    sl.remoteLoop tp w = .returned error uio_resid w.passed := by
  induction tp, w using remoteLoop.induct sl with
  | case1 tp w hroom hclosed =>
      have hleft := left_fetch w (sl.remoteChunk tp w)
      rw [Write.left, Write.left, hclosed.1, List.length_nil] at hleft
      refine ⟨.eio, resid (w.fetch (sl.remoteChunk tp w)).uio, by omega, ?_⟩
      rw [remoteLoop, dif_pos hroom, if_pos hclosed, passed_fetch]
  | case2 tp w hroom chunk hopen ih =>
      obtain ⟨error, uio_resid, hle, hret⟩ := ih
      refine ⟨error, uio_resid, ?_, ?_⟩
      · refine hle.trans ?_
        simp only [chunk, Write.fetch]
        split
        · exact Nat.le_of_add_right_le (resid_uiomove _ _).le
        · exact le_rfl
      · rw [remoteLoop, dif_pos hroom, if_neg hopen, hret, passed_fetch]
  | case3 tp w hroom =>
      exact ⟨.ok, resid w.uio, le_rfl, by rw [remoteLoop, dif_neg hroom]⟩

/-- In remote mode bytes are taken that are not passed. -/
theorem remoteLoop_takes {uio : List (List UInt8)} (hcan : sl.cancc tp = 0) (hresid : resid uio ≠ 0) :
    ∃ error uio_resid, uio_resid < resid uio ∧
      sl.remoteLoop tp ⟨uio, [], 0, []⟩ = .returned error uio_resid [] := by
  generalize hw : (⟨uio, [], 0, []⟩ : Write) = w
  obtain ⟨rfl, hheld, hpassed⟩ : w.uio = uio ∧ w.held = [] ∧ w.passed = [] := by simp [← hw]
  have hsize : 0 < TTYHOG - 1 := by decide
  have hroom : resid w.uio ≠ 0 ∧ sl.cancc tp < TTYHOG - 1 := ⟨hresid, by omega⟩
  have hpos := sl.remote_pos hroom
  have hleft := left_fetch w (sl.remoteChunk tp w)
  rw [Write.left, Write.left, hheld, List.length_nil] at hleft
  by_cases hclosed : sl.isopen tp = false
  · refine ⟨.eio, resid (w.fetch (sl.remoteChunk tp w)).uio, by omega, ?_⟩
    rw [remoteLoop, dif_pos hroom, if_pos ⟨hheld, hclosed⟩, passed_fetch, hpassed]
  · obtain ⟨error, uio_resid, hle, hret⟩ := sl.remoteLoop_passed
      (sl.b_to_q tp (w.fetch (sl.remoteChunk tp w)).held)
      { w.fetch (sl.remoteChunk tp w) with held := [] }
    dsimp only at hle
    refine ⟨error, uio_resid, by omega, ?_⟩
    rw [remoteLoop, dif_pos hroom, if_neg (fun h => hclosed h.2), hret, passed_fetch,
      hpassed]

theorem resume_returned {ndelay : Bool} {error : PtyError} {uio_resid : Nat} {passed : List UInt8}
    (wakes : List T) (h : sl.again ndelay tp w = .returned error uio_resid passed) :
    sl.resume ndelay w tp wakes = some (error, uio_resid, passed) := by
  unfold resume
  rw [h]

theorem resume_sleeps {ndelay : Bool} {tp' tp'' : T} {w' : Write} {wakes : List T}
    (h : sl.again ndelay tp w = .sleeps tp'' w') :
    sl.resume ndelay w tp (tp' :: wakes) = sl.resume ndelay w' tp' wakes := by
  rw [resume.eq_def, h]

/-! ## Blocking writes -/

/-- A stretch of a blocking write: it sleeps only when it was safe to go on, and when it returns 0 all
is passed exactly when it was. -/
theorem again_spec (tp : T) (h : Accounted buffer w) :
    match sl.again false tp w with
    | .returned error _ passed => error = .ok → (passed = buffer ↔ sl.Safe (tp, w))
    | .sleeps _ w' => sl.Safe (tp, w) ∧ Accounted buffer w' := by
  have hleft := left_eq_zero h
  -- a stretch that blocks at once
  have hblock : ¬ sl.Goes tp → match sl.block false tp w with
      | .returned error _ passed => error = .ok → (passed = buffer ↔ sl.Safe (tp, w))
      | .sleeps _ w' => sl.Safe (tp, w) ∧ Accounted buffer w' := by
    intro hstuck
    rw [block]
    by_cases hcarr : sl.carrOn tp = false
    · rw [if_pos hcarr]
      exact nofun
    · rw [if_neg hcarr]
      exact ⟨fun hgoes => absurd hgoes hstuck, h⟩
  unfold again
  by_cases hclosed : sl.isopen tp = false
  · rw [if_pos hclosed]
    exact hblock fun hgoes => by simp [Goes, hclosed] at hgoes
  rw [if_neg hclosed]
  have hopen : sl.isopen tp = true := by simpa using hclosed
  by_cases hremote : sl.remote tp = true
  · rw [if_pos hremote]
    by_cases hcan : sl.cancc tp ≠ 0
    · rw [if_pos hcan]
      exact hblock fun hgoes => hgoes.2 ⟨hremote, hcan⟩
    · rw [if_neg hcan]
      obtain ⟨error, uio_resid, -, hret⟩ := sl.remoteLoop_passed tp w
      rw [hret]
      intro _
      rw [← hleft]
      constructor
      · intro hzero _ hne
        exact absurd hzero hne
      · intro hsafe
        by_contra hne
        have := (hsafe ⟨hopen, fun hrem => hcan hrem.2⟩ hne).1
        rw [hremote] at this
        cases this
  · rw [if_neg hremote]
    have hgoes : sl.Goes tp := ⟨hopen, fun hrem => hremote hrem.1⟩
    have hlocal : sl.remote tp = false := by simpa using hremote
    have hloop := sl.writeLoop_spec tp h
    split
    · rename_i error uio_resid passed hret
      rw [hret] at hloop
      intro hok
      have hpassed := hloop hok
      split at hpassed
      · rename_i hzero
        rw [hpassed, ← hleft]
        constructor
        · intro hnone _ hne
          exact absurd hnone hne
        · intro hsafe
          by_contra hne
          exact (hsafe hgoes hne).2 hzero
      · rename_i hsome
        exact ⟨fun _ _ _ => ⟨hlocal, hsome⟩, fun _ => hpassed⟩
    · rename_i tp' w' hsleep
      rw [hsleep] at hloop
      exact ⟨fun _ _ => ⟨hlocal, hloop.1⟩, hloop.2⟩

/-- A blocking write that returns 0 has passed all of its bytes exactly when it was safe each time
it went on. -/
theorem resume_passed {r : Nat} {passed : List UInt8} {wakes : List T}
    (h : Accounted buffer w) (hret : sl.resume false w tp wakes = some (.ok, r, passed)) :
    passed = buffer ↔ ∀ e ∈ sl.entries false w tp wakes, sl.Safe e := by
  induction wakes generalizing w tp with
  | nil =>
      have hspec := sl.again_spec tp h
      unfold resume at hret
      unfold entries
      split at hret
      · rename_i error uio_resid passed' wakes' hagain
        rw [hagain] at hspec ⊢
        cases hret
        simpa using hspec rfl
      · cases hret
      · rename_i heq
        cases heq
  | cons tp' wakes ih =>
      have hspec := sl.again_spec tp h
      unfold resume at hret
      unfold entries
      split at hret
      · rename_i error uio_resid passed' wakes' hagain
        rw [hagain] at hspec ⊢
        cases hret
        simpa using hspec rfl
      · rename_i heq
        cases heq
      · rename_i tp'' w' tp₁ wakes₁ hagain heq
        cases heq
        rw [hagain] at hspec ⊢
        rw [List.forall_mem_cons, ih hspec.2 hret]
        exact ⟨fun hall => ⟨hspec.1, hall⟩, fun hall => hall.2⟩

/-! ## Non-blocking writes -/

/-- The inner loop stops where the queues fill up. -/
theorem pass_stalled (tp : T) (w : Write) (cs rest : List UInt8) :
    if (sl.pass tp w cs).2.held = [] then
      sl.stalled tp (cs ++ rest) = sl.stalled (sl.pass tp w cs).1 rest
    else sl.stalled tp (cs ++ rest) = some (sl.pass tp w cs).1 := by
  induction cs generalizing tp w with
  | nil => simp [pass]
  | cons c cs ih =>
      rw [List.cons_append, stalled, pass]
      by_cases hfull : sl.full tp = true
      · simp [hfull]
      · rw [if_neg hfull, if_neg hfull]
        exact ih _ _

theorem pass_isopen (tp : T) (w : Write) (cs : List UInt8) :
    sl.isopen (sl.pass tp w cs).1 = sl.isopen tp := by
  induction cs generalizing tp w with
  | nil => rfl
  | cons c cs ih =>
      rw [pass]
      split
      · rfl
      · rw [ih, sl.ttyinput_isopen]

/-- A non-blocking write counts the bytes not passed, unless it finds no carrier where the queues
fill up. -/
theorem writeLoop_resid (hopen : sl.isopen tp = true) (hheld : w.held = []) :
    ∃ error uio_resid passed, sl.writeLoop true tp w = .returned error uio_resid passed ∧
      (uio_resid + passed.length = resid w.uio + w.passed.length ↔
        ∀ tp', sl.stalled tp w.uio.flatten = some tp' → sl.carrOn tp' = true) := by
  induction tp, w using writeLoop.induct sl with
  | case1 tp w hzero =>
      have hnil : w.uio.flatten = [] := by
        rw [resid_eq] at hzero
        exact List.length_eq_zero_iff.mp hzero
      refine ⟨.ok, resid w.uio, w.passed, by rw [writeLoop, dif_pos hzero], ?_⟩
      simp [hnil, stalled]
  | case2 tp w hsome hclosed =>
      rw [hopen] at hclosed
      cases hclosed.2
  | case3 tp w hsome chunk hcheck res hstuck =>
      have hres : sl.writeLoop true tp w = sl.block true res.1 res.2 := by
        rw [writeLoop, dif_neg hsome, if_neg hcheck, dif_pos hstuck]
      obtain ⟨huio, hbytes⟩ := sl.pass_spec tp chunk chunk.held
      have hstall := sl.pass_stalled tp chunk chunk.held chunk.uio.flatten
      rw [if_neg hstuck] at hstall
      have hflat : chunk.held ++ chunk.uio.flatten = w.uio.flatten := by
        simp only [chunk, Write.fetch, if_pos hheld]
        exact (uiomove_spec _ _).1
      have hleft : chunk.left = w.left := left_fetch w _
      have hpassed : chunk.passed = w.passed := passed_fetch w _
      have hlength := congrArg List.length hbytes
      rw [hpassed, List.length_append, List.length_append] at hlength
      rw [Write.left, Write.left, hheld, List.length_nil] at hleft
      have hpos := List.length_pos_iff.mpr hstuck
      have hresid : resid res.2.uio = resid chunk.uio := congrArg resid huio
      change res.2.passed.length + res.2.held.length = _ at hlength
      rw [hres, block]
      rw [hflat] at hstall
      by_cases hcarr : sl.carrOn res.1 = false
      · rw [if_pos hcarr]
        refine ⟨_, _, _, rfl, ?_⟩
        constructor
        · intro heq
          omega
        · intro hall
          rw [hall res.1 hstall] at hcarr
          cases hcarr
      · rw [if_neg hcarr]
        refine ⟨_, _, _, rfl, ?_⟩
        constructor
        · intro _ tp' htp'
          rw [hstall] at htp'
          cases htp'
          simpa using hcarr
        · intro _
          omega
  | case4 tp w hsome chunk hcheck res hdone ih =>
      have hnil : res.2.held = [] := not_not.mp hdone
      have hstep : sl.writeLoop true tp w = sl.writeLoop true res.1 res.2 := by
        rw [writeLoop, dif_neg hsome, if_neg hcheck, dif_neg hdone]
      obtain ⟨huio, hbytes⟩ := sl.pass_spec tp chunk chunk.held
      have hstall := sl.pass_stalled tp chunk chunk.held chunk.uio.flatten
      rw [if_pos hnil] at hstall
      have hflat : chunk.held ++ chunk.uio.flatten = w.uio.flatten := by
        simp only [chunk, Write.fetch, if_pos hheld]
        exact (uiomove_spec _ _).1
      have hleft : chunk.left = w.left := left_fetch w _
      have hpassed : chunk.passed = w.passed := passed_fetch w _
      change res.2.passed ++ res.2.held = _ at hbytes
      have hlength := congrArg List.length hbytes
      rw [hpassed, hnil, List.append_nil, List.length_append] at hlength
      rw [Write.left, Write.left, hheld, List.length_nil] at hleft
      have hresid : res.2.uio = chunk.uio := huio
      obtain ⟨error, uio_resid, passed, hret, hiff⟩ :=
        ih ((sl.pass_isopen tp chunk chunk.held).trans hopen) hnil
      refine ⟨error, uio_resid, passed, hstep.trans hret, ?_⟩
      rw [hresid] at hiff
      rw [← hflat, hstall, ← hiff]
      omega

/-- A non-blocking write of these buffers accounts for what it does not pass: it does not put bytes
into the canonical queue of remote mode, and does not lose the carrier where the queues fill up. -/
def Counts (tp : T) (uio : List (List UInt8)) : Prop :=
  sl.isopen tp = true →
    if sl.remote tp = true then sl.cancc tp ≠ 0 ∨ resid uio = 0
    else ∀ tp', sl.stalled tp uio.flatten = some tp' → sl.carrOn tp' = true

theorem block_ndelay (tp : T) (uio : List (List UInt8)) :
    ∃ error, sl.block true tp ⟨uio, [], 0, []⟩ = .returned error (resid uio) [] := by
  rw [block]
  split
  · exact ⟨_, rfl⟩
  · exact ⟨_, rfl⟩

/-- A non-blocking write does not sleep, and leaves the bytes not passed in `uio_resid` exactly when
it accounts for them. -/
theorem again_ndelay (tp : T) (uio : List (List UInt8)) :
    ∃ error uio_resid passed,
      sl.again true tp ⟨uio, [], 0, []⟩ = .returned error uio_resid passed ∧
      (uio_resid + passed.length = resid uio ↔ sl.Counts tp uio) := by
  unfold again Counts
  by_cases hclosed : sl.isopen tp = false
  · obtain ⟨error, hret⟩ := sl.block_ndelay tp uio
    refine ⟨error, resid uio, [], by rw [if_pos hclosed, hret], ?_⟩
    simp [hclosed]
  have hopen : sl.isopen tp = true := by simpa using hclosed
  simp only [hopen, Bool.true_eq_false, if_false, true_imp_iff]
  by_cases hremote : sl.remote tp = true
  · rw [if_pos hremote, if_pos hremote]
    by_cases hcan : sl.cancc tp ≠ 0
    · obtain ⟨error, hret⟩ := sl.block_ndelay tp uio
      refine ⟨error, resid uio, [], by rw [if_pos hcan, hret], ?_⟩
      simp [hcan]
    · rw [if_neg hcan]
      by_cases hnone : resid uio = 0
      · obtain ⟨error, uio_resid, hle, hret⟩ := sl.remoteLoop_passed tp ⟨uio, [], 0, []⟩
        refine ⟨error, uio_resid, [], hret, ?_⟩
        dsimp only at hle
        simp only [List.length_nil, Nat.add_zero, hnone, or_true, iff_true]
        omega
      · obtain ⟨error, uio_resid, hlt, hret⟩ :=
          sl.remoteLoop_takes (not_not.mp hcan) hnone
        refine ⟨error, uio_resid, [], hret, ?_⟩
        simp only [List.length_nil, Nat.add_zero, hnone, or_false, hcan, iff_false]
        omega
  · rw [if_neg hremote, if_neg hremote]
    exact sl.writeLoop_resid hopen rfl

/-! ## The call -/

/-- A blocking write that returns 0 has passed every byte, in order and once, exactly when it was safe
each time it went on. A non-blocking write returns, and leaves the number of bytes not passed in
`uio_resid` exactly when it accounts for them. -/
theorem ptcwrite_accounts (sl : Slave T) (uio : List (List UInt8)) (tp : T) (wakes : List T) :
    (∀ r passed, sl.ptcwrite false uio tp wakes = some (.ok, r, passed) →
      (passed = uio.flatten ↔ ∀ e ∈ sl.entries false ⟨uio, [], 0, []⟩ tp wakes, sl.Safe e)) ∧
    ∃ error uio_resid passed,
      sl.ptcwrite true uio tp wakes = some (error, uio_resid, passed) ∧
        (uio_resid + passed.length = resid uio ↔ sl.Counts tp uio) := by
  constructor
  · intro r passed hret
    exact sl.resume_passed (by simp [Accounted]) hret
  · obtain ⟨error, uio_resid, passed, hret, hiff⟩ := sl.again_ndelay tp uio
    exact ⟨error, uio_resid, passed, sl.resume_returned wakes hret, hiff⟩

end Slave

/-- A pseudo-terminal: the slave's terminal, whether it is open, has a carrier and is in remote
mode. -/
structure Pty where
  tty : Tty
  isopen : Bool
  carrOn : Bool
  remote : Bool

/-- The master side of a pseudo-terminal without the line editor. -/
def master : Slave Pty where
  isopen := Pty.isopen
  carrOn := Pty.carrOn
  remote := Pty.remote
  rawOrCbreak pty := pty.tty.flags.raw || pty.tty.flags.cbreak
  rawcc pty := pty.tty.rawq.length
  cancc pty := pty.tty.canq.length
  ttyinput pty c := { pty with tty := ttyinput false false pty.tty c }
  b_to_q pty cs := { pty with tty := { pty.tty with canq := pty.tty.canq ++ cs } }
  ttyinput_isopen _ _ := rfl

/-- An open pseudo-terminal in cbreak mode with `n` characters that nobody has read. -/
def unread (n : Nat) : Pty where
  tty := { fresh with
    flags := { fresh.flags with cbreak := true }
    rawq := List.replicate n 97 }
  isopen := true
  carrOn := true
  remote := false

theorem full_unread {n : Nat} (h : TTYHOG - 2 ≤ n) : master.full (unread n) = true := by
  have hlength : TTYHOG - 2 ≤ (List.replicate n (97 : UInt8)).length + 0 := by
    rw [List.length_replicate]
    exact h
  have hroom : decide (TTYHOG - 2 ≤ master.rawcc (unread n) + master.cancc (unread n)) = true :=
    decide_eq_true hlength
  rw [Slave.full, hroom]
  rfl

theorem again_unread (n : Nat) (w : Write) :
    master.again false (unread n) w = master.writeLoop false (unread n) w := by
  have hopen : master.isopen (unread n) = true := rfl
  have hremote : master.remote (unread n) = false := rfl
  rw [Slave.again, hopen, hremote]
  rfl

/-- A write of a byte to a terminal without room sleeps until there is room, returns 0, and has not
passed the byte. -/
theorem ptcwrite_loses :
    master.ptcwrite false [[98]] (unread 253) [unread 0] = some (.ok, 0, []) := by
  have hfull : master.full (unread 253) = true := full_unread (by decide)
  have hopen : master.isopen (unread 253) = true := rfl
  have hcarr : master.carrOn (unread 253) = true := rfl
  have hsleep : master.again false (unread 253) ⟨[[98]], [], 0, []⟩ =
      .sleeps (unread 253) ⟨[], [98], 0, []⟩ := by
    rw [again_unread, Slave.writeLoop]
    simp [resid, Write.fetch, uiomove, BUFSIZ, Slave.pass, hfull, Slave.block, hcarr, hopen]
  have hwake : master.again false (unread 0) ⟨[], [98], 0, []⟩ = .returned .ok 0 [] := by
    rw [again_unread, Slave.writeLoop]
    simp [resid]
  rw [Slave.ptcwrite, master.resume_sleeps hsleep]
  exact master.resume_returned [] hwake

end DiscoBsd.Terminal
