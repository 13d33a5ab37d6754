import Mathlib.Data.List.Basic
import DiscoBsd.Exec.Args

/-!
# Which argument lists are saved

A list is saved as a whole, or it stops at the first string without room, and `exec` goes on. A script
without arguments of its own makes the loop step over the end of the caller's array. The main theorem,
`args_saved_iff`, says which calls start a program with its whole lists.
-/

namespace DiscoBsd.Exec

variable {next : Nat → Nat → Option Str × Nat} {alloc alloc' : Arena} {ptr ptr' : Nat}

/-! ## Room for strings -/

/-- The strings find room, one after the other. -/
def allocAll (strs : List Str) (alloc : Arena) : Option Arena :=
  strs.foldlM (fun alloc str => (exec_alloc (str.length + 1) 1 alloc).map Prod.snd) alloc

/-- The pointers of a list and its strings find room. -/
def allocList (count : Nat) (strs : List Str) (alloc : Arena) : Option Arena :=
  if count = 0 then some alloc
  else (exec_alloc (count * NBPW) NBPW alloc).bind fun found => allocAll strs found.2

theorem allocAll_cons (str : Str) (strs : List Str) (alloc : Arena) :
    allocAll (str :: strs) alloc =
      (exec_alloc (str.length + 1) 1 alloc).bind fun found => allocAll strs found.2 := by
  unfold allocAll
  rw [List.foldlM_cons]
  exact Option.bind_map ..

theorem exec_alloc_free {size ru : Nat} {place : Nat × Nat}
    (h : exec_alloc size ru alloc = some (place, alloc')) : alloc'.free + size ≤ alloc.free := by
  induction alloc generalizing alloc' place with
  | nil => cases h
  | cons fill alloc ih =>
      have hround : fill ≤ if ru ≤ 1 then fill else (fill + (ru - 1)) / ru * ru := by
        split
        · exact Nat.le_refl _
        · have := Nat.div_add_mod (fill + (ru - 1)) ru
          have := Nat.mod_lt (fill + (ru - 1)) (show 0 < ru by omega)
          have := Nat.mul_comm ru ((fill + (ru - 1)) / ru)
          omega
      rw [exec_alloc] at h
      generalize (if ru ≤ 1 then fill else (fill + (ru - 1)) / ru * ru) = start at h hround
      dsimp only at h
      split at h
      · cases h
        simp only [Arena.free, List.map_cons, List.sum_cons]
        omega
      · obtain ⟨⟨⟨i, offset⟩, rest⟩, hrest, heq⟩ := Option.map_eq_some_iff.mp h
        cases heq
        have := ih hrest
        simp only [Arena.free, List.map_cons, List.sum_cons] at this ⊢
        omega

theorem bytes_cons (str : Str) (strs : List Str) :
    bytes (str :: strs) = str.length + 1 + bytes strs := by
  unfold bytes
  rw [List.map_cons, List.sum_cons]

theorem length_le_bytes (strs : List Str) : strs.length ≤ bytes strs := by
  induction strs with
  | nil => exact Nat.zero_le _
  | cons str strs ih =>
      rw [bytes_cons, List.length_cons]
      omega

/-- Strings that find room take their bytes. -/
theorem allocAll_free {strs : List Str} (h : allocAll strs alloc = some alloc') :
    alloc'.free + bytes strs ≤ alloc.free := by
  induction strs generalizing alloc with
  | nil =>
      cases h
      exact Nat.le_refl _
  | cons str strs ih =>
      rw [allocAll_cons] at h
      obtain ⟨⟨place, mid⟩, hfound, hrest⟩ := Option.bind_eq_some_iff.mp h
      have := exec_alloc_free hfound
      have := ih hrest
      rw [bytes_cons]
      dsimp only at *
      omega

/-- A list that finds room takes four bytes for each pointer, and the bytes of its strings. -/
theorem allocList_free {strs : List Str} (h : allocList strs.length strs alloc = some alloc') :
    alloc'.free + NBPW * strs.length + bytes strs ≤ alloc.free := by
  unfold allocList at h
  split at h
  · next hnone =>
      cases h
      rw [List.length_eq_zero_iff.mp hnone]
      exact Nat.le_refl _
  · obtain ⟨⟨place, mid⟩, hfound, hrest⟩ := Option.bind_eq_some_iff.mp h
    have := exec_alloc_free hfound
    have := allocAll_free hrest
    have := Nat.mul_comm strs.length NBPW
    dsimp only at *
    omega

/-! ## The loop -/

/-- The strings that come next, and the pointer behind them. -/
def Leads (next : Nat → Nat → Option Str × Nat) : Nat → Nat → List Str → Nat → Prop
  | _, ptr, [], ptr' => ptr' = ptr
  | argc, ptr, str :: strs, ptr' =>
      ∃ mid, next argc ptr = (some str, mid) ∧ Leads next (argc + 1) mid strs ptr'

theorem Leads.append {argc mid : Nat} {strs strs' : List Str} (h : Leads next argc ptr strs mid)
    (h' : Leads next (argc + strs.length) mid strs' ptr') :
    Leads next argc ptr (strs ++ strs') ptr' := by
  induction strs generalizing argc ptr with
  | nil =>
      cases h
      exact h'
  | cons str strs ih =>
      obtain ⟨mid', hnext, hrest⟩ := h
      refine ⟨mid', hnext, ih hrest ?_⟩
      rw [show argc + 1 + strs.length = argc + (str :: strs).length by rw [List.length_cons]; omega]
      exact h'

/-- Strings with room are saved. -/
theorem saveStrings_fit {saved strs : List Str} (h : Leads next saved.length ptr strs ptr')
    (hfit : allocAll strs alloc = some alloc') (limit : Nat) :
    saveStrings next (limit + strs.length) saved ptr alloc =
      saveStrings next limit (saved ++ strs) ptr' alloc' := by
  induction strs generalizing saved ptr alloc with
  | nil =>
      cases h
      cases hfit
      rw [List.append_nil, List.length_nil, Nat.add_zero]
  | cons str strs ih =>
      obtain ⟨mid, hnext, hrest⟩ := h
      rw [allocAll_cons] at hfit
      obtain ⟨⟨place, mid'⟩, hfound, hfit⟩ := Option.bind_eq_some_iff.mp hfit
      rw [List.length_cons, ← Nat.add_assoc, saveStrings, hnext]
      dsimp only
      rw [hfound]
      dsimp only
      rw [ih ?_ hfit, List.append_assoc]
      · rfl
      · rw [List.length_append]
        exact hrest

/-- Without room the loop stops among the strings. -/
theorem saveStrings_full {saved strs : List Str} (h : Leads next saved.length ptr strs ptr')
    (hfull : allocAll strs alloc = none) (limit : Nat) :
    ∃ saved' alloc', saveStrings next limit saved ptr alloc = (false, saved', alloc') ∧
      saved'.length < saved.length + strs.length := by
  induction strs generalizing saved ptr alloc limit with
  | nil => cases hfull
  | cons str strs ih =>
      rw [List.length_cons]
      cases limit with
      | zero => exact ⟨saved, alloc, rfl, by omega⟩
      | succ limit =>
          obtain ⟨mid, hnext, hrest⟩ := h
          rw [allocAll_cons] at hfull
          unfold saveStrings
          rw [hnext]
          dsimp only
          cases hfound : exec_alloc (str.length + 1) 1 alloc with
          | none => exact ⟨saved, alloc, rfl, by omega⟩
          | some found =>
              rw [hfound] at hfull
              dsimp only
              have hlength : (saved ++ [str]).length = saved.length + 1 := List.length_append
              rw [← hlength] at hrest
              obtain ⟨saved', alloc', hsaved, hlt⟩ := ih hrest hfull limit
              exact ⟨saved', alloc', hsaved, by omega⟩

/-- What has been saved stays. -/
theorem saveStrings_length (limit : Nat) (saved : List Str) (ptr : Nat) (alloc : Arena) :
    saved.length ≤ (saveStrings next limit saved ptr alloc).2.1.length := by
  induction limit generalizing saved ptr alloc with
  | zero => exact Nat.le_refl _
  | succ limit ih =>
      unfold saveStrings
      split
      · exact Nat.le_refl _
      · split
        · exact Nat.le_refl _
        · refine Nat.le_trans ?_ (ih ..)
          rw [List.length_append]
          omega

/-! ## A list -/

/-- A list that ends, with a pointer for each string: it is saved if there is room, and shortened
otherwise. -/
theorem saveList_cases {strs : List Str} (h : Leads next 0 ptr strs ptr')
    (hend : (next strs.length ptr').1 = none) (alloc : Arena) :
    (∃ alloc', allocList strs.length strs alloc = some alloc' ∧
        saveList next strs.length ptr alloc = (true, strs.length, strs, alloc')) ∨
      allocList strs.length strs alloc = none ∧ ∃ slots saved alloc',
        saveList next strs.length ptr alloc = (false, slots, saved, alloc') ∧
          saved.length ≤ slots ∧ saved.length < strs.length := by
  unfold allocList saveList
  by_cases hnone : strs.length = 0
  · rw [if_pos hnone, if_pos hnone, List.length_eq_zero_iff.mp hnone]
    exact .inl ⟨alloc, rfl, rfl⟩
  rw [if_neg hnone, if_neg hnone]
  cases hfound : exec_alloc (strs.length * NBPW) NBPW alloc with
  | none => exact .inr ⟨rfl, 0, [], alloc, rfl, Nat.le_refl _, Nat.pos_of_ne_zero hnone⟩
  | some found =>
      obtain ⟨place, mid⟩ := found
      dsimp only [Option.bind_some]
      cases hfit : allocAll strs mid with
      | none =>
          have hleads : Leads next ([] : List Str).length ptr strs ptr' := h
          obtain ⟨saved, alloc', hsaved, hlt⟩ := saveStrings_full hleads hfit (mid.free + 1)
          rw [hsaved]
          rw [List.length_nil, Nat.zero_add] at hlt
          exact .inr ⟨rfl, strs.length, saved, alloc', rfl, Nat.le_of_lt hlt, hlt⟩
      | some alloc' =>
          -- the string behind the last ends the loop
          have hroom := allocAll_free hfit
          have := length_le_bytes strs
          obtain ⟨limit, hlimit⟩ : ∃ limit, mid.free + 1 = limit + 1 + strs.length :=
            ⟨mid.free - strs.length, by omega⟩
          have hleads : Leads next ([] : List Str).length ptr strs ptr' := h
          rw [hlimit, saveStrings_fit hleads hfit, saveStrings, List.nil_append]
          rw [show next strs.length ptr' = (none, (next strs.length ptr').2) from
            Prod.ext hend rfl]
          exact .inl ⟨alloc', rfl, rfl⟩

/-! ## The lists of the caller -/

/-- The strings of an array of pointers with NULL behind it. -/
def UserMemory.Vector (mem : UserMemory) : Nat → List Str → Prop
  | ptr, [] => mem.word ptr = 0
  | ptr, str :: strs =>
      mem.word ptr ≠ 0 ∧ mem.str (mem.word ptr) = str ∧ mem.Vector (ptr + NBPW) strs

/-- A list of the caller: NULL, or an array in the address space. -/
def UserMemory.Strings (mem : UserMemory) (userp : Nat) (strs : List Str) : Prop :=
  userp = 0 ∧ strs = [] ∨
    userp ≠ 0 ∧ userp + NBPW * (strs.length + 1) ≤ 4294967296 ∧ mem.Vector userp strs

/-- The words of the first line and the name of the script. -/
def Call.heads (x : Call) (sh : Script) : List Str :=
  sh.interpname :: ((if sh.interparg = [] then [] else [sh.interparg]) ++ [x.userfname])

/-- The list that is to be saved. -/
def Call.args (x : Call) (args : List Str) : List Str :=
  match x.sh with
  | none => args
  | some sh => x.heads sh ++ args.tail

variable {x : Call} {mem : UserMemory} {args envs : List Str}

theorem count_vector {words : Nat} {strs : List Str} (h : mem.Vector ptr strs)
    (hroom : ptr + NBPW * (strs.length + 1) ≤ 4294967296) (hwords : strs.length < words) :
    mem.count words ptr = strs.length := by
  induction strs generalizing words ptr with
  | nil =>
      cases words with
      | zero => cases hwords
      | succ words => exact if_pos h
  | cons str strs ih =>
      cases words with
      | zero => cases hwords
      | succ words =>
          have hnbpw : NBPW = 4 := rfl
          rw [List.length_cons, hnbpw] at hroom
          rw [List.length_cons] at hwords ⊢
          have hnext : wrap (ptr + NBPW) = ptr + NBPW := Nat.mod_eq_of_lt (by omega)
          have hrest : ptr + NBPW + NBPW * (strs.length + 1) ≤ 4294967296 := by
            rw [hnbpw]
            omega
          rw [UserMemory.count, if_neg h.1, hnext, ih h.2.2 hrest (by omega)]

theorem strings_eq {userp : Nat} (h : x.mem.Strings userp args) : x.strings userp = args.length := by
  unfold Call.strings
  rcases h with ⟨hnull, rfl⟩ | ⟨hptr, hroom, hvector⟩
  · exact if_pos hnull
  · have hnbpw : NBPW = 4 := rfl
    rw [if_neg hptr]
    refine count_vector hvector hroom ?_
    rw [hnbpw] at hroom
    omega

/-- An array is fetched string by string, and then its NULL. -/
theorem fetch_vector (h : x.mem.Vector ptr args) (hptr : ptr ≠ 0)
    (hroom : ptr + NBPW * (args.length + 1) ≤ 4294967296) (argc : Nat) :
    ∃ ptr', Leads (fun _ => x.fetch) argc ptr args ptr' ∧ (x.fetch ptr').1 = none := by
  induction args generalizing argc ptr with
  | nil =>
      refine ⟨ptr, rfl, ?_⟩
      unfold Call.fetch
      rw [if_neg hptr]
      exact if_pos h
  | cons str strs ih =>
      have hnbpw : NBPW = 4 := rfl
      rw [List.length_cons, hnbpw] at hroom
      have hnext : wrap (ptr + NBPW) = ptr + NBPW := Nat.mod_eq_of_lt (by omega)
      have hroom' : ptr + NBPW + NBPW * (strs.length + 1) ≤ 4294967296 := by
        rw [hnbpw]
        omega
      obtain ⟨ptr', hrest, hend⟩ := ih h.2.2 (by omega) hroom' (argc + 1)
      refine ⟨ptr', ⟨ptr + NBPW, ?_, hrest⟩, hend⟩
      show x.fetch ptr = (some str, ptr + NBPW)
      unfold Call.fetch UserMemory.deref
      rw [if_neg hptr, if_neg h.1, h.2.1, hnext]

theorem fetch_strings {userp : Nat} (h : x.mem.Strings userp args) :
    ∃ ptr', Leads (fun _ => x.fetch) 0 userp args ptr' ∧ (x.fetch ptr').1 = none := by
  rcases h with ⟨rfl, rfl⟩ | ⟨hptr, hroom, hvector⟩
  · exact ⟨0, rfl, rfl⟩
  · exact fetch_vector hvector hptr hroom 0

theorem stepBack_fetch (hptr : ptr ≠ 0) (hlt : ptr < 4294967296) :
    Call.stepBack (x.fetch ptr).2 = ptr := by
  unfold Call.stepBack Call.fetch wrap
  rw [if_neg hptr]
  have hnbpw : NBPW = 4 := rfl
  dsimp only
  omega

theorem fetch_lt (x : Call) (ptr : Nat) : (x.fetch ptr).2 < 4294967296 := by
  unfold Call.fetch wrap
  split
  · decide
  · exact Nat.mod_lt _ (by decide)

/-- The loop takes the heads of a script before anything else. -/
theorem leads_heads {sh : Script} (hsh : x.sh = some sh) (ptr : Nat) :
    ∃ ptr', Leads x.nextArg 0 ptr (x.heads sh) ptr' ∧
      ((x.fetch ptr).2 ≠ 0 → ptr' = (x.fetch ptr).2) := by
  have hname : x.nextArg 0 ptr = (some sh.interpname, (x.fetch ptr).2) := by
    unfold Call.nextArg
    rw [hsh]
    rfl
  have hlt := fetch_lt x ptr
  unfold Call.heads
  generalize (x.fetch ptr).2 = behind at hname hlt ⊢
  by_cases harg : sh.interparg = []
  · have hfile : x.nextArg 1 behind = (some x.userfname, Call.stepBack (x.fetch behind).2) := by
      unfold Call.nextArg
      rw [hsh]
      simp [harg]
    rw [if_pos harg]
    exact ⟨_, ⟨behind, hname, _, hfile, rfl⟩, fun hne => stepBack_fetch hne hlt⟩
  · have hfirst : x.nextArg 1 behind = (some sh.interparg, Call.stepBack (x.fetch behind).2) := by
      unfold Call.nextArg
      rw [hsh]
      simp [harg]
    have hfile : ∀ mid, x.nextArg 2 mid = (some x.userfname, Call.stepBack (x.fetch mid).2) := by
      intro mid
      unfold Call.nextArg
      rw [hsh]
      simp [harg]
    rw [if_neg harg]
    refine ⟨_, ⟨behind, hname, _, hfirst, _, hfile _, rfl⟩, fun hne => ?_⟩
    rw [stepBack_fetch hne hlt, stepBack_fetch hne hlt]

/-- Behind the heads the loop takes what it finds. -/
theorem nextArg_behind {sh : Script} (hsh : x.sh = some sh) {argc : Nat}
    (hargc : (x.heads sh).length ≤ argc) (ptr : Nat) : x.nextArg argc ptr = x.fetch ptr := by
  unfold Call.heads at hargc
  unfold Call.nextArg
  rw [hsh]
  by_cases harg : sh.interparg = []
  · rw [if_pos harg] at hargc
    simp only [List.nil_append, List.length_cons, List.length_nil] at hargc
    simp [harg, show ¬ argc = 0 by omega, show ¬ argc = 1 by omega]
  · rw [if_neg harg] at hargc
    simp only [List.cons_append, List.nil_append, List.length_cons, List.length_nil] at hargc
    simp [show ¬ argc = 0 by omega, show ¬ argc = 1 by omega, show ¬ argc = 2 by omega]

theorem Leads.congr {next' : Nat → Nat → Option Str × Nat} {argc : Nat} {strs : List Str}
    (h : Leads next argc ptr strs ptr') (hnext : ∀ argc', argc ≤ argc' → next' argc' = next argc') :
    Leads next' argc ptr strs ptr' := by
  induction strs generalizing argc ptr with
  | nil => exact h
  | cons str strs ih =>
      obtain ⟨mid, hstr, hrest⟩ := h
      refine ⟨mid, ?_, ih hrest fun argc' hle => hnext argc' (by omega)⟩
      rw [hnext argc (Nat.le_refl argc), hstr]

/-- The list that the loop takes, when there is an argument to replace by the heads of a script. -/
theorem leads_args (hargs : x.mem.Strings x.userargp args) (hfirst : x.sh = none ∨ args ≠ []) :
    x.argc = (x.args args).length ∧ ∃ ptr', Leads x.nextArg 0 x.userargp (x.args args) ptr' ∧
      (x.nextArg (x.args args).length ptr').1 = none := by
  unfold Call.argc Call.args
  cases hsh : x.sh with
  | none =>
      obtain ⟨ptr', hleads, hend⟩ := fetch_strings hargs
      have hnext : ∀ argc, x.nextArg argc = x.fetch := fun argc => by
        funext ptr
        unfold Call.nextArg
        rw [hsh]
      refine ⟨strings_eq hargs, ptr', hleads.congr fun argc _ => hnext argc, ?_⟩
      dsimp only
      rw [hnext]
      exact hend
  | some sh =>
      have hne : args ≠ [] := hfirst.resolve_left (by rw [hsh]; exact Option.some_ne_none sh)
      obtain ⟨first, rest, rfl⟩ := List.exists_cons_of_ne_nil hne
      have hnbpw : NBPW = 4 := rfl
      rcases hargs with ⟨-, hnil⟩ | ⟨hptr, hroom, hvector⟩
      · cases hnil
      have hstrings := strings_eq (.inr ⟨hptr, hroom, hvector⟩)
      rw [List.length_cons, hnbpw] at hroom
      have hfetch : (x.fetch x.userargp).2 = x.userargp + NBPW := by
        unfold Call.fetch
        rw [if_neg hptr]
        exact Nat.mod_eq_of_lt (by omega)
      obtain ⟨mid, hheads, hmid⟩ := leads_heads hsh x.userargp
      rw [hfetch] at hmid
      obtain ⟨ptr', hrest, hend⟩ := fetch_vector hvector.2.2 (by omega)
        (by rw [hnbpw]; omega) (x.heads sh).length
      rw [← hmid (by omega)] at hrest
      have hbehind : ∀ argc, (x.heads sh).length ≤ argc → x.nextArg argc = x.fetch :=
        fun argc hle => funext fun ptr => nextArg_behind hsh hle ptr
      refine ⟨?_, ptr', hheads.append ?_, ?_⟩
      · have hlength : (x.heads sh).length = 2 + if sh.interparg = [] then 0 else 1 := by
          unfold Call.heads
          split <;> rfl
        rw [hstrings, List.length_append, hlength, List.tail_cons, List.length_cons]
        dsimp only
        omega
      · rw [Nat.zero_add]
        exact hrest.congr hbehind
      · rw [hbehind _ (by rw [List.length_append]; omega)]
        exact hend

/-! ## The call -/

/-- All that is to be saved finds room. -/
def Call.Fits (x : Call) (args envs : List Str) : Prop :=
  ((allocList (x.args args).length (x.args args) x.alloc).bind
    (allocList envs.length envs)).isSome

/-- The heads of a script find room behind an array for one pointer less. -/
def Call.HeadsFit (x : Call) (sh : Script) : Prop :=
  (allocList ((x.heads sh).length - 1) (x.heads sh) x.alloc).isSome

instance (x : Call) (args envs : List Str) : Decidable (x.Fits args envs) :=
  inferInstanceAs (Decidable (_ = true))

instance (x : Call) (sh : Script) : Decidable (x.HeadsFit sh) :=
  inferInstanceAs (Decidable (_ = true))

/-- The saved pointers are inside of their arrays, and a program that is started has the whole lists. -/
def Call.Saves (x : Call) (args envs : List Str) (accepted : Bool) : Prop :=
  (exec_save_args x).argp.length ≤ (exec_save_args x).argSlots ∧
    (exec_save_args x).envp.length ≤ (exec_save_args x).envSlots ∧
    ∀ saved, execute x accepted = some saved → saved.argp = x.args args ∧ saved.envp = envs

/-- What is saved of the lists of a call that has an argument to replace, or nothing to insert. -/
theorem save_args_cases (hargs : x.mem.Strings x.userargp args)
    (henvs : x.mem.Strings x.userenvp envs) (hfirst : x.sh = none ∨ args ≠ []) :
    (exec_save_args x).argp.length ≤ (exec_save_args x).argSlots ∧
      (exec_save_args x).envp.length ≤ (exec_save_args x).envSlots ∧
      ((exec_save_args x).argp = x.args args ∧ (exec_save_args x).envp = envs ↔ x.Fits args envs) := by
  obtain ⟨hargc, behind, hleads, hend⟩ := leads_args hargs hfirst
  obtain ⟨behind', hleads', hend'⟩ := fetch_strings henvs
  unfold exec_save_args Call.Fits
  rw [hargc, strings_eq henvs]
  rcases saveList_cases hleads hend x.alloc with ⟨alloc, hroom, hsaved⟩ |
    ⟨hroom, slots, saved, alloc, hsaved, hslots, hshort⟩
  · rw [hsaved, hroom]
    dsimp only [Option.bind_some]
    rcases saveList_cases hleads' hend' alloc with ⟨alloc', hroom', hsaved'⟩ |
      ⟨hroom', slots', saved', alloc', hsaved', hslots', hshort'⟩
    · rw [hsaved', hroom']
      exact ⟨Nat.le_refl _, Nat.le_refl _, iff_of_true ⟨rfl, rfl⟩ rfl⟩
    · rw [hsaved', hroom']
      refine ⟨Nat.le_refl _, hslots', iff_of_false (fun h => ?_) Bool.false_ne_true⟩
      have hsame : saved' = envs := h.2
      rw [hsame] at hshort'
      exact Nat.lt_irrefl _ hshort'
  · rw [hsaved, hroom]
    refine ⟨hslots, Nat.le_refl _, iff_of_false (fun h => ?_) Bool.false_ne_true⟩
    have hsame : saved = x.args args := h.1
    rw [hsame] at hshort
    exact Nat.lt_irrefl _ hshort

theorem saved_args (x : Call) :
    (exec_save_args x).argp = (saveList x.nextArg x.argc x.userargp x.alloc).2.2.1 ∧
      (exec_save_args x).argSlots = (saveList x.nextArg x.argc x.userargp x.alloc).2.1 := by
  unfold exec_save_args
  dsimp only
  split <;> exact ⟨rfl, rfl⟩

/-- The pointers of the environment are inside of their array. -/
theorem saved_envs (henvs : x.mem.Strings x.userenvp envs) :
    (exec_save_args x).envp.length ≤ (exec_save_args x).envSlots := by
  obtain ⟨behind, hleads, hend⟩ := fetch_strings henvs
  unfold exec_save_args
  rw [strings_eq henvs]
  dsimp only
  split
  · rcases saveList_cases hleads hend (saveList x.nextArg x.argc x.userargp x.alloc).2.2.2 with
      ⟨alloc, -, hsaved⟩ | ⟨-, slots, saved, alloc, hsaved, hslots, -⟩
    · refine Nat.le_of_eq ?_
      rw [hsaved]
    · rw [hsaved]
      exact hslots
  · exact Nat.le_refl _

/-- Without an argument to replace, the heads of a script need more pointers than there are. -/
theorem save_args_heads {sh : Script} (hsh : x.sh = some sh) (hargs : x.mem.Strings x.userargp []) :
    x.HeadsFit sh ∧ (exec_save_args x).argSlots < (exec_save_args x).argp.length ∨
      ¬ x.HeadsFit sh ∧ (exec_save_args x).argp.length ≤ (exec_save_args x).argSlots ∧
        (exec_save_args x).argp.length < (x.heads sh).length := by
  obtain ⟨behind, hleads, -⟩ := leads_heads hsh x.userargp
  have hlength : (x.heads sh).length = 2 + if sh.interparg = [] then 0 else 1 := by
    unfold Call.heads
    split <;> rfl
  have hargc : x.argc = (x.heads sh).length - 1 := by
    unfold Call.argc
    rw [strings_eq hargs, hsh, hlength]
    dsimp only [List.length_nil]
    omega
  have hpos : ¬ (x.heads sh).length - 1 = 0 := by omega
  unfold Call.HeadsFit allocList
  rw [(saved_args x).1, (saved_args x).2, hargc]
  unfold saveList
  rw [if_neg hpos, if_neg hpos]
  cases hfound : exec_alloc (((x.heads sh).length - 1) * NBPW) NBPW x.alloc with
  | none => exact .inr ⟨Bool.false_ne_true, Nat.le_refl _, by dsimp only [List.length_nil]; omega⟩
  | some found =>
      obtain ⟨place, mid⟩ := found
      have hleads' : Leads x.nextArg ([] : List Str).length x.userargp (x.heads sh) behind := hleads
      dsimp only [Option.bind_some]
      cases hfit : allocAll (x.heads sh) mid with
      | none =>
          obtain ⟨saved, alloc, hsaved, hlt⟩ := saveStrings_full hleads' hfit (mid.free + 1)
          rw [hsaved]
          rw [List.length_nil, Nat.zero_add] at hlt
          exact .inr ⟨Bool.false_ne_true, by dsimp only; omega, hlt⟩
      | some alloc =>
          have hroom := allocAll_free hfit
          have := length_le_bytes (x.heads sh)
          obtain ⟨limit, hlimit⟩ : ∃ limit, mid.free + 1 = limit + 1 + (x.heads sh).length :=
            ⟨mid.free - (x.heads sh).length, by omega⟩
          rw [hlimit, saveStrings_fit hleads' hfit, List.nil_append]
          have hlong : (x.heads sh).length ≤
              (saveStrings x.nextArg (limit + 1) (x.heads sh) behind alloc).2.1.length :=
            saveStrings_length ..
          exact .inl ⟨rfl, Nat.lt_of_lt_of_le (by omega) hlong⟩

theorem saves_accepted (hargs : x.mem.Strings x.userargp args)
    (henvs : x.mem.Strings x.userenvp envs) (hfirst : x.sh = none ∨ args ≠ []) :
    x.Saves args envs true ↔ x.Fits args envs := by
  obtain ⟨hargc, henvc, hwhole⟩ := save_args_cases hargs henvs hfirst
  rw [← hwhole]
  refine ⟨fun h => h.2.2 _ rfl, fun h => ⟨hargc, henvc, fun saved hsaved => ?_⟩⟩
  cases hsaved
  exact h

/-- A call saves its lists if and only if they find room in the buffers and a script has an argument to
replace. When the file is refused, it is enough that a script has an argument to replace, or its heads
find no room. -/
theorem args_saved_iff (x : Call) (hargs : x.mem.Strings x.userargp args)
    (henvs : x.mem.Strings x.userenvp envs) (accepted : Bool) :
    x.Saves args envs accepted ↔
      if accepted then (x.sh = none ∨ args ≠ []) ∧ x.Fits args envs
      else args = [] → ∀ sh, x.sh = some sh → ¬ x.HeadsFit sh := by
  by_cases hfirst : x.sh = none ∨ args ≠ []
  · cases accepted with
    | false =>
        obtain ⟨hargc, henvc, -⟩ := save_args_cases hargs henvs hfirst
        refine iff_of_true ⟨hargc, henvc, fun saved h => by cases h⟩ fun hnone sh hsh => ?_
        rcases hfirst with hdirect | hne
        · rw [hdirect] at hsh
          cases hsh
        · exact absurd hnone hne
    | true =>
        rw [if_pos rfl, saves_accepted hargs henvs hfirst]
        exact (and_iff_right hfirst).symm
  · obtain ⟨hscript, hnone⟩ := not_or.mp hfirst
    obtain ⟨sh, hsh⟩ := Option.ne_none_iff_exists'.mp hscript
    rw [not_not] at hnone
    subst hnone
    have hlist : x.args [] = x.heads sh := by
      unfold Call.args
      rw [hsh]
      exact List.append_nil _
    have honly : (∀ sh', x.sh = some sh' → ¬ x.HeadsFit sh') ↔ ¬ x.HeadsFit sh := by
      refine ⟨fun h => h sh hsh, fun h sh' hsh' => ?_⟩
      cases hsh.symm.trans hsh'
      exact h
    rcases save_args_heads hsh hargs with ⟨hfit, hover⟩ | ⟨hfull, hslots, hshort⟩
    · -- a pointer behind the array
      refine iff_of_false (fun h => absurd h.1 (by omega)) ?_
      cases accepted with
      | false => exact fun h => honly.mp (h rfl) hfit
      | true => exact fun h => hfirst h.1
    · cases accepted with
      | false =>
          exact iff_of_true ⟨hslots, saved_envs henvs, fun saved h => by cases h⟩
            fun _ => honly.mpr hfull
      | true =>
          refine iff_of_false (fun h => ?_) fun h => hfirst h.1
          have hsame := (h.2.2 _ rfl).1
          rw [hsame, hlist] at hshort
          exact Nat.lt_irrefl _ hshort

/-- The memory of a caller with one argument, or two. -/
def callerMemory (first second : Str) : UserMemory where
  word ptr := if ptr = 4096 then 8192 else if ptr = 4100 ∧ second ≠ [] then 9216 else 0
  str ptr := if ptr = 8192 then first else second

/-- The script `./a` of the interpreter `/b`, run with the option `-v`. -/
def scriptCall : Call where
  mem := callerMemory [46, 47, 97] [45, 118]
  userfname := [46, 47, 97]
  userargp := 4096
  userenvp := 0
  sh := some ⟨[47, 98], []⟩
  alloc := .empty

theorem args_saved_script : scriptCall.Saves [[46, 47, 97], [45, 118]] [] true := by
  have hargs : scriptCall.mem.Strings scriptCall.userargp [[46, 47, 97], [45, 118]] :=
    .inr ⟨by decide, by decide, by decide, rfl, by decide, rfl, rfl⟩
  have henvs : scriptCall.mem.Strings scriptCall.userenvp [] := .inl ⟨rfl, rfl⟩
  exact (args_saved_iff scriptCall hargs henvs true).mpr ⟨.inr (by decide), by decide⟩

/-- The program `/a`, run with an argument of 1024 characters. -/
def longCall : Call where
  mem := callerMemory (List.replicate 1024 97) []
  userfname := [47, 97]
  userargp := 4096
  userenvp := 0
  sh := none
  alloc := .empty

theorem long_argument_lost :
    longCall.mem.Strings longCall.userargp [List.replicate 1024 97] ∧
      longCall.mem.Strings longCall.userenvp [] ∧
      ¬ longCall.Saves [List.replicate 1024 97] [] true := by
  have hargs : longCall.mem.Strings longCall.userargp [List.replicate 1024 97] :=
    .inr ⟨by decide, by decide, by decide, rfl, rfl⟩
  have henvs : longCall.mem.Strings longCall.userenvp [] := .inl ⟨rfl, rfl⟩
  have hfull : allocAll [List.replicate 1024 97] [4, 0, 0, 0, 0, 0] = none := by
    rw [allocAll_cons, List.length_replicate]
    rfl
  have hargp : allocList 1 [List.replicate 1024 97] .empty = none := hfull
  refine ⟨hargs, henvs, fun h => ?_⟩
  have hfits := (saves_accepted hargs henvs (.inl rfl)).mp h
  rw [show longCall.Fits [List.replicate 1024 97] [] =
    (((allocList 1 [List.replicate 1024 97] .empty).bind (allocList 0 [])).isSome = true) from rfl,
    hargp] at hfits
  cases hfits

end DiscoBsd.Exec
