import DiscoBsd.Exec.ArgLists
import DiscoBsd.Exec.Args

/-!
# Where the stack is built

The strings and the pointers of the two lists lie one after the other below the top of the memory, so
that `exec_setupstack` never panics. Whether all of it is inside of the section of the stack depends on
the loader, and the alignment of the stack pointer on the machine: `stack_built_iff`.
-/

namespace DiscoBsd.Exec

open Lib

variable {mem mem' : Bytes} {ptr ucp topp : Nat}

/-! ## The copies -/

theorem copystr_eq (src : Str) {maxlength : Nat} (dest : Nat) (mem : Bytes)
    (hroom : src.length + 1 ≤ maxlength) :
    copystr src maxlength dest mem = (true, src.length + 1, putBytes mem dest (src ++ [0])) := by
  have hpos : ¬ maxlength = 0 := by omega
  induction src generalizing maxlength dest mem with
  | nil =>
      unfold copystr
      rw [if_neg hpos]
      rfl
  | cons c src ih =>
      rw [List.length_cons] at hroom
      unfold copystr
      rw [if_neg hpos, ih (dest + 1) _ (by omega) (by omega), putBytes_cons]
      rfl

/-- A list in memory: its pointers from `ptr` on, and its strings one after the other. -/
def Laid (mem : Bytes) : Nat → Nat → List Str → Prop
  | ptr, _, [] => get32 mem ptr = 0
  | ptr, ucp, str :: strs =>
      get32 mem ptr = ucp ∧ bytesAt mem ucp (str.length + 1) = str ++ [0] ∧
        Laid mem (ptr + NBPW) (ucp + (str.length + 1)) strs

/-- The bytes of a list at these places. -/
def Taken (ptr ucp : Nat) (strs : List Str) (addr : Nat) : Prop :=
  ptr ≤ addr ∧ addr < ptr + NBPW * (strs.length + 1) ∨ ucp ≤ addr ∧ addr < ucp + bytes strs

theorem Laid.congr {strs : List Str} (h : Laid mem ptr ucp strs)
    (hsame : ∀ addr, Taken ptr ucp strs addr → mem' addr = mem addr) : Laid mem' ptr ucp strs := by
  have hnbpw : NBPW = 4 := rfl
  induction strs generalizing ptr ucp with
  | nil =>
      have hword : get32 mem' ptr = get32 mem ptr := get32_congr fun i hi =>
        hsame (ptr + i) (.inl ⟨by omega, by rw [hnbpw, List.length_nil]; omega⟩)
      exact hword.trans h
  | cons str strs ih =>
      obtain ⟨hptr, hstr, hrest⟩ := h
      have hword : get32 mem' ptr = get32 mem ptr := get32_congr fun i hi =>
        hsame (ptr + i) (.inl ⟨by omega, by rw [hnbpw, List.length_cons]; omega⟩)
      have hbytes : bytesAt mem' ucp (str.length + 1) = bytesAt mem ucp (str.length + 1) :=
        bytesAt_congr fun i hi => hsame (ucp + i) (.inr ⟨by omega, by rw [bytes_cons]; omega⟩)
      refine ⟨hword.trans hptr, hbytes.trans hstr, ih hrest fun addr htaken => hsame addr ?_⟩
      unfold Taken at htaken ⊢
      rw [hnbpw] at htaken ⊢
      rw [bytes_cons, List.length_cons]
      omega

/-- The loop lays out a list that has room, and writes nothing else. -/
theorem putStrings_laid (strs : List Str) (hptrs : ptr + NBPW * (strs.length + 1) ≤ ucp)
    (htop : ucp + bytes strs ≤ topp) (hlt : topp < 4294967296) (mem : Bytes) :
    ∃ mem', putStrings topp strs ptr ucp mem = (ucp + bytes strs, mem') ∧
      Laid mem' ptr ucp strs ∧ ∀ addr, ¬ Taken ptr ucp strs addr → mem' addr = mem addr := by
  have hnbpw : NBPW = 4 := rfl
  induction strs generalizing ptr ucp mem with
  | nil =>
      refine ⟨put32 mem ptr 0, rfl, get32_put32 mem ptr (by decide), fun addr hout => ?_⟩
      refine put32_outside 0 ?_
      unfold Taken at hout
      rw [hnbpw, List.length_nil] at hout
      omega
  | cons str strs ih =>
      rw [hnbpw, List.length_cons] at hptrs
      rw [bytes_cons] at htop
      have hroom : str.length + 1 ≤ below topp ucp := by
        unfold below wrap
        omega
      have hptrs' : ptr + NBPW + NBPW * (strs.length + 1) ≤ ucp + (str.length + 1) := by
        rw [hnbpw]
        omega
      obtain ⟨mem', hrest, hlaid, houtside⟩ :=
        ih hptrs' (by omega) (putBytes (put32 mem ptr ucp) ucp (str ++ [0]))
      have hlength : (str ++ [0]).length = str.length + 1 := by rw [List.length_append]; rfl
      -- the rest of the list leaves the first pointer and the first string
      have hfirst : ∀ addr, ptr ≤ addr ∧ addr < ptr + 4 ∨ ucp ≤ addr ∧ addr < ucp + (str.length + 1) →
          mem' addr = putBytes (put32 mem ptr ucp) ucp (str ++ [0]) addr := by
        intro addr haddr
        refine houtside addr fun htaken => ?_
        unfold Taken at htaken
        rw [hnbpw] at htaken
        omega
      refine ⟨mem', ?_, ⟨?_, ?_, hlaid⟩, fun addr hout => ?_⟩
      · unfold putStrings
        rw [copystr_eq str ucp (put32 mem ptr ucp) hroom]
        dsimp only
        rw [hrest, bytes_cons, Nat.add_assoc]
      · have hword : get32 mem' ptr = get32 (put32 mem ptr ucp) ptr := get32_congr fun i hi => by
          rw [hfirst (ptr + i) (.inl ⟨by omega, by omega⟩), putBytes_before _ (by omega)]
        rw [hword, get32_put32 mem ptr (by omega)]
      · have hbytes : bytesAt mem' ucp (str.length + 1) =
            bytesAt (putBytes (put32 mem ptr ucp) ucp (str ++ [0])) ucp (str.length + 1) :=
          bytesAt_congr fun i hi => hfirst (ucp + i) (.inr ⟨by omega, by omega⟩)
        rw [hbytes, ← hlength]
        exact bytesAt_putBytes ..
      · unfold Taken at hout
        rw [hnbpw, bytes_cons, List.length_cons] at hout
        rw [houtside addr ?_, putBytes_outside _ (by rw [hlength]; omega),
          put32_outside _ (by omega)]
        unfold Taken
        rw [hnbpw]
        omega

/-! ## The stack as a whole -/

variable {port : Port} {stack : Memsect} {epp : Saved}

/-- The bytes that the strings take, in words. -/
def Saved.room (epp : Saved) : Nat := (bytes epp.envp + bytes epp.argp + 3) / 4 * 4

/-- The buffers of `exec_alloc` had room for the lists. -/
def Saved.Bounded (epp : Saved) : Prop :=
  NBPW * epp.argp.length + bytes epp.argp + NBPW * epp.envp.length + bytes epp.envp ≤
    MAXALLOCBUF * MAXBSIZE

/-- Where the pointers to the arguments are. -/
def Port.argp (port : Port) (epp : Saved) : Nat :=
  port.user_data_end - 4 - epp.room - 4 * (epp.envp.length + 1) - 4 * (epp.argp.length + 1)

theorem Saved.Bounded.counts (h : epp.Bounded) :
    epp.argc = epp.argp.length ∧ epp.envc = epp.envp.length ∧ epp.argbc = bytes epp.argp ∧
      epp.envbc = bytes epp.envp := by
  have hnbpw : NBPW = 4 := rfl
  have hbufs : MAXALLOCBUF * MAXBSIZE = 6144 := rfl
  unfold Saved.Bounded at h
  rw [hnbpw, hbufs] at h
  unfold Saved.argc Saved.envc Saved.argbc Saved.envbc
  omega

/-- `exec_setupstack` lays out both lists and comes to the top. -/
theorem setupstack_laid (hbounded : epp.Bounded) (mem : Bytes)
    (hstack : wrap (stack.vaddr + stack.len) = port.user_data_end) :
    ∃ mem', exec_setupstack port stack epp mem =
        some ⟨mem', if port.mips then port.argp epp - 64 else (port.argp epp - 256) / 8 * 8,
          epp.argp.length, port.argp epp, port.argp epp + 4 * (epp.argp.length + 1)⟩ ∧
      Laid mem' (port.argp epp) (port.user_data_end - 4 - epp.room) epp.argp ∧
      Laid mem' (port.argp epp + 4 * (epp.argp.length + 1))
        (port.user_data_end - 4 - epp.room + bytes epp.argp) epp.envp := by
  obtain ⟨hargc, henvc, hargbc, henvbc⟩ := hbounded.counts
  have hnbpw : NBPW = 4 := rfl
  have hbufs : MAXALLOCBUF * MAXBSIZE = 6144 := rfl
  have hlow := port.low
  have hhigh := port.high
  have haligned := port.aligned
  unfold Saved.Bounded at hbounded
  rw [hnbpw, hbufs] at hbounded
  -- the addresses that the code computes
  have htopp : below port.user_data_end NBPW = port.user_data_end - 4 := by
    unfold below wrap
    omega
  have hroundup : roundup (bytes epp.envp + bytes epp.argp) = epp.room := by
    unfold roundup wrap Saved.room
    rw [hnbpw]
    omega
  have hroom : bytes epp.envp + bytes epp.argp ≤ epp.room ∧ epp.room ≤ 6147 ∧ epp.room % 4 = 0 := by
    unfold Saved.room
    omega
  have hucp : below (port.user_data_end - 4) epp.room = port.user_data_end - 4 - epp.room := by
    unfold below wrap
    omega
  have henvp : below (port.user_data_end - 4 - epp.room) ((epp.envp.length + 1) * NBPW) =
      port.user_data_end - 4 - epp.room - 4 * (epp.envp.length + 1) := by
    unfold below wrap
    rw [hnbpw]
    omega
  have hargp : below (port.user_data_end - 4 - epp.room - 4 * (epp.envp.length + 1))
      ((epp.argp.length + 1) * NBPW) = port.argp epp := by
    unfold below wrap Port.argp
    rw [hnbpw]
    omega
  have hplace : port.argp epp = port.user_data_end - 4 - epp.room - 4 * (epp.envp.length + 1) -
      4 * (epp.argp.length + 1) := rfl
  generalize hbase : port.argp epp = argp at hargp hplace ⊢
  have hsp : (if port.mips then below argp port.gap else below argp port.gap / 8 * 8) =
      if port.mips then argp - 64 else (argp - 256) / 8 * 8 := by
    unfold Port.gap below wrap
    cases port.mips <;> simp only [Bool.false_eq_true, if_true, if_false, hnbpw] <;> omega
  have hargroom : argp + NBPW * (epp.argp.length + 1) ≤ port.user_data_end - 4 - epp.room := by
    rw [hnbpw]
    omega
  have henvroom : argp + 4 * (epp.argp.length + 1) + NBPW * (epp.envp.length + 1) ≤
      port.user_data_end - 4 - epp.room + bytes epp.argp := by
    rw [hnbpw]
    omega
  have hlast : port.user_data_end - 4 < 4294967296 := by omega
  obtain ⟨mid, hargs, hlaid, hsame⟩ :=
    putStrings_laid epp.argp hargroom (by omega) hlast (put32 mem (port.user_data_end - 4) argp)
  obtain ⟨mem', henvs, hlaid', hsame'⟩ :=
    putStrings_laid epp.envp henvroom (by omega) hlast mid
  refine ⟨mem', ?_, hlaid.congr fun addr htaken => hsame' addr fun htaken' => ?_, hlaid'⟩
  · unfold exec_setupstack
    have hbehind : port.user_data_end - 4 - epp.room - 4 * (epp.envp.length + 1) =
        argp + 4 * (epp.argp.length + 1) := by omega
    have hend : roundup (port.user_data_end - 4 - epp.room + bytes epp.argp + bytes epp.envp) =
        port.user_data_end - 4 := by
      rw [← hroundup] at hroom ⊢
      unfold roundup wrap at hroom ⊢
      rw [hnbpw] at hroom ⊢
      omega
    rw [hstack, htopp, hargc, henvc, hargbc, henvbc, hroundup, List.take_length, List.take_length]
    dsimp only
    rw [hucp, henvp, hargp, hsp, hargs, hbehind]
    dsimp only
    rw [henvs]
    exact if_pos hend
  · unfold Taken at htaken htaken'
    rw [hnbpw] at htaken htaken'
    omega

/-! ## The section of the stack -/

/-- A list between `lo` and `hi`: its pointers, with NULL behind them, lead to copies of the strings. -/
def Inside (mem : Bytes) (lo hi : Nat) : Nat → List Str → Prop
  | ptr, [] => (lo ≤ ptr ∧ ptr + NBPW ≤ hi) ∧ get32 mem ptr = 0
  | ptr, str :: strs =>
      (lo ≤ ptr ∧ ptr + NBPW ≤ hi) ∧
        (lo ≤ get32 mem ptr ∧ get32 mem ptr + (str.length + 1) ≤ hi) ∧
        bytesAt mem (get32 mem ptr) (str.length + 1) = str ++ [0] ∧
        Inside mem lo hi (ptr + NBPW) strs

/-- The program finds its lists, and its stack is inside of its section. -/
structure Started.Ready (s : Started) (stack : Memsect) (args envs : List Str) : Prop where
  argc : s.argc = args.length
  argv : Inside s.mem stack.vaddr (stack.vaddr + stack.len) s.argp args
  env : Inside s.mem stack.vaddr (stack.vaddr + stack.len) s.envp envs
  sp_low : stack.vaddr ≤ s.sp
  sp_high : s.sp < stack.vaddr + stack.len
  sp_aligned : s.sp % 8 = 0

theorem Laid.inside {lo hi : Nat} {strs : List Str} (h : Laid mem ptr ucp strs)
    (hptrs : lo ≤ ptr ∧ ptr + NBPW * (strs.length + 1) ≤ hi)
    (hstrs : lo ≤ ucp ∧ ucp + bytes strs ≤ hi) : Inside mem lo hi ptr strs := by
  have hnbpw : NBPW = 4 := rfl
  induction strs generalizing ptr ucp with
  | nil =>
      rw [List.length_nil] at hptrs
      exact ⟨⟨hptrs.1, by omega⟩, h⟩
  | cons str strs ih =>
      obtain ⟨hptr, hstr, hrest⟩ := h
      rw [hnbpw, List.length_cons] at hptrs
      rw [bytes_cons] at hstrs
      refine ⟨⟨hptrs.1, by omega⟩, ?_, ?_, ih hrest (by rw [hnbpw]; omega) (by omega)⟩
      · rw [hptr]
        omega
      · rw [hptr]
        exact hstr

theorem stack_end (port : Port) (hbounded : epp.Bounded) (loader : Loader) :
    (loader.stack port epp).vaddr + (loader.stack port epp).len = port.user_data_end ∧
      (loader.stack port epp).len = match loader with
        | .aout => SSIZE + epp.room + (epp.argp.length + epp.envp.length + 4) * NBPW
        | .elf => SSIZE + 4 * NBPW := by
  obtain ⟨hargc, henvc, hargbc, henvbc⟩ := hbounded.counts
  have hnbpw : NBPW = 4 := rfl
  have hssize : SSIZE = 2048 := rfl
  have hbufs : MAXALLOCBUF * MAXBSIZE = 6144 := rfl
  have hlow := port.low
  have hhigh := port.high
  unfold Saved.Bounded at hbounded
  rw [hnbpw, hbufs] at hbounded
  unfold Loader.stack
  cases loader with
  | aout =>
      have hroundup : roundup (bytes epp.argp + bytes epp.envp) = epp.room := by
        unfold roundup wrap Saved.room
        rw [hnbpw]
        omega
      have hroom : epp.room ≤ 6147 := by
        unfold Saved.room
        omega
      unfold Loader.stackLen below wrap
      rw [hargc, henvc, hargbc, henvbc, hroundup, hnbpw, hssize]
      dsimp only
      omega
  | elf =>
      have hlen : Loader.elf.stackLen .nothing = 2064 := rfl
      dsimp only
      rw [hlen, hnbpw, hssize]
      unfold below wrap
      omega

/-- What the loader computed has room for the stack, and the stack pointer is aligned. -/
def Port.Suits (port : Port) (loader : Loader) (args envs : List Str) : Prop :=
  (loader = .elf → roundup (bytes args + bytes envs) + (args.length + envs.length + 3) * NBPW +
      port.gap ≤ SSIZE + 4 * NBPW) ∧
    (port.mips = true →
      (roundup (bytes args + bytes envs) / NBPW + args.length + envs.length) % 2 = 1)

instance (port : Port) (loader : Loader) (args envs : List Str) :
    Decidable (port.Suits loader args envs) :=
  inferInstanceAs (Decidable (_ ∧ _))

theorem setupstack_ready_iff (port : Port) (hbounded : epp.Bounded) (loader : Loader) (mem : Bytes) :
    (∃ s, exec_setupstack port (loader.stack port epp) epp mem = some s ∧
      s.Ready (loader.stack port epp) epp.argp epp.envp) ↔ port.Suits loader epp.argp epp.envp := by
  obtain ⟨htop, hlen⟩ := stack_end port hbounded loader
  have hhigh := port.high
  have hstack : wrap ((loader.stack port epp).vaddr + (loader.stack port epp).len) =
      port.user_data_end := by
    rw [htop]
    exact Nat.mod_eq_of_lt hhigh
  obtain ⟨mem', hsetup, hargs, henvs⟩ := setupstack_laid hbounded mem hstack
  have hlow := port.low
  have haligned := port.aligned
  have hnbpw : NBPW = 4 := rfl
  have hssize : SSIZE = 2048 := rfl
  have hbufs : MAXALLOCBUF * MAXBSIZE = 6144 := rfl
  unfold Saved.Bounded at hbounded
  rw [hnbpw, hbufs] at hbounded
  have hroundup : roundup (bytes epp.argp + bytes epp.envp) = epp.room := by
    unfold roundup wrap Saved.room
    rw [hnbpw]
    omega
  have hroom : bytes epp.envp + bytes epp.argp ≤ epp.room ∧ epp.room ≤ 6147 ∧ epp.room % 4 = 0 := by
    unfold Saved.room
    omega
  have hargp : port.argp epp + epp.room + 4 * (epp.argp.length + epp.envp.length + 3) =
      port.user_data_end := by
    unfold Port.argp
    omega
  have hgap : port.gap = if port.mips then 64 else 256 := rfl
  unfold Port.Suits
  rw [hroundup, hgap, hnbpw, hssize]
  rw [hnbpw, hssize] at hlen
  generalize loader.stack port epp = stack at *
  generalize port.argp epp = argp at *
  refine ⟨fun ⟨s, hs, hready⟩ => ?_, fun ⟨hfits, heven⟩ => ⟨_, hsetup, ?_⟩⟩
  · cases hs.symm.trans hsetup
    have hsp := hready.sp_low
    have hsp8 := hready.sp_aligned
    dsimp only at hsp hsp8
    refine ⟨fun helf => ?_, fun hmips => ?_⟩
    · subst helf
      dsimp only at hlen
      cases hmips : port.mips <;> rw [hmips] at hsp <;>
        simp only [Bool.false_eq_true, if_true, if_false] at hsp ⊢ <;> omega
    · rw [hmips, if_pos rfl] at hsp8
      omega
  · have hsp : stack.vaddr ≤ (if port.mips then argp - 64 else (argp - 256) / 8 * 8) ∧
        (if port.mips then argp - 64 else (argp - 256) / 8 * 8) < stack.vaddr + stack.len ∧
        (if port.mips then argp - 64 else (argp - 256) / 8 * 8) % 8 = 0 := by
      cases hmips : port.mips with
      | false =>
          rw [hmips] at hfits
          simp only [Bool.false_eq_true, if_false] at hfits ⊢
          cases loader <;> simp only [reduceCtorEq, forall_const, false_implies] at hlen hfits <;> omega
      | true =>
          rw [hmips] at hfits
          have heven := heven hmips
          simp only [if_true] at hfits ⊢
          cases loader <;> simp only [reduceCtorEq, forall_const, false_implies] at hlen hfits <;> omega
    have hbase : stack.vaddr ≤ argp := by
      refine Nat.le_trans hsp.1 ?_
      split <;> omega
    exact
      { argc := rfl
        argv := hargs.inside (by rw [hnbpw, htop]; omega) (by omega)
        env := henvs.inside (by rw [hnbpw, htop]; omega) (by omega)
        sp_low := hsp.1
        sp_high := hsp.2.1
        sp_aligned := hsp.2.2 }

/-! ## The call -/

variable {x : Call} {args envs : List Str} {loader : Loader}

/-- Lists that find room have been saved, and their counts are small. -/
theorem saved_bounded (hargs : x.mem.Strings x.userargp args)
    (henvs : x.mem.Strings x.userenvp envs) (hfirst : x.sh = none ∨ args ≠ [])
    (halloc : x.alloc = loader.alloc) (hfits : x.Fits args envs) :
    (exec_save_args x).argp = x.args args ∧ (exec_save_args x).envp = envs ∧
      (exec_save_args x).Bounded := by
  obtain ⟨hargp, henvp⟩ := (save_args_cases hargs henvs hfirst).2.2.mpr hfits
  obtain ⟨alloc', hboth⟩ := Option.isSome_iff_exists.mp hfits
  obtain ⟨mid, hfirst, hrest⟩ := Option.bind_eq_some_iff.mp hboth
  have := allocList_free hfirst
  have := allocList_free hrest
  have hfree : x.alloc.free ≤ MAXALLOCBUF * MAXBSIZE := by
    rw [halloc]
    cases loader <;> decide
  refine ⟨hargp, henvp, ?_⟩
  unfold Saved.Bounded
  rw [hargp, henvp]
  omega

/-- The loader starts the program with its lists on a stack inside of its section. -/
def Call.BuildsStack (port : Port) (loader : Loader) (x : Call) (args envs : List Str)
    (mem : Bytes) : Prop :=
  ∃ s, exec_setupstack port (loader.stack port (exec_save_args x)) (exec_save_args x) mem = some s ∧
    s.Ready (loader.stack port (exec_save_args x)) args envs

/-- The stack of a call that saves its lists is right if and only if what the loader computed has room
for it, which an ELF file does before the lists are saved, and a MIPS happens to have it aligned. -/
theorem stack_built_iff (port : Port) (hargs : x.mem.Strings x.userargp args)
    (henvs : x.mem.Strings x.userenvp envs) (hfirst : x.sh = none ∨ args ≠ [])
    (halloc : x.alloc = loader.alloc) (hfits : x.Fits args envs) (mem : Bytes) :
    x.BuildsStack port loader (x.args args) envs mem ↔ port.Suits loader (x.args args) envs := by
  obtain ⟨hargp, henvp, hbounded⟩ := saved_bounded hargs henvs hfirst halloc hfits
  have hready := setupstack_ready_iff port hbounded loader mem
  rw [hargp, henvp] at hready
  exact hready

theorem stack_built_script :
    scriptCall.BuildsStack (.gba .plain) .aout (scriptCall.args [[46, 47, 97], [45, 118]]) []
      fun _ => 0 := by
  have hargs : scriptCall.mem.Strings scriptCall.userargp [[46, 47, 97], [45, 118]] :=
    .inr ⟨by decide, by decide, by decide, rfl, by decide, rfl, rfl⟩
  have henvs : scriptCall.mem.Strings scriptCall.userenvp [] := .inl ⟨rfl, rfl⟩
  exact (stack_built_iff (.gba .plain) hargs henvs (.inr (by decide)) rfl (by decide) _).mpr
    (by decide)

/-- An ELF program that is run with arguments of 900 and 1000 characters, which take two buffers. -/
def largeCall : Call where
  mem := callerMemory (List.replicate 900 97) (List.replicate 1000 97)
  userfname := [47, 97]
  userargp := 4096
  userenvp := 0
  sh := none
  alloc := Loader.elf.alloc

theorem large_arguments_outside :
    largeCall.mem.Strings largeCall.userargp [List.replicate 900 97, List.replicate 1000 97] ∧
      largeCall.mem.Strings largeCall.userenvp [] ∧
      largeCall.Fits [List.replicate 900 97, List.replicate 1000 97] [] ∧
      ¬ largeCall.BuildsStack (.gba .plain) .elf
        [List.replicate 900 97, List.replicate 1000 97] [] fun _ => 0 := by
  have hargs : largeCall.mem.Strings largeCall.userargp
      [List.replicate 900 97, List.replicate 1000 97] :=
    .inr ⟨by decide, by decide, by decide, rfl, by decide, rfl, rfl⟩
  have henvs : largeCall.mem.Strings largeCall.userenvp [] := .inl ⟨rfl, rfl⟩
  have hlength : ∀ n, (List.replicate n (97 : UInt8)).length = n := fun _ => List.length_replicate
  have hfits : largeCall.Fits [List.replicate 900 97, List.replicate 1000 97] [] := by
    have hroom : (allocAll [List.replicate 900 97, List.replicate 1000 97]
        [40, 0, 0, 0, 0, 0]).isSome = true := by
      rw [allocAll_cons, hlength]
      show (allocAll [List.replicate 1000 97] [941, 0, 0, 0, 0, 0]).isSome = true
      rw [allocAll_cons, hlength]
      rfl
    obtain ⟨alloc, halloc⟩ := Option.isSome_iff_exists.mp hroom
    have hpointers : ∀ strs, allocList 2 strs Loader.elf.alloc = allocAll strs [40, 0, 0, 0, 0, 0] :=
      fun _ => rfl
    show ((allocList 2 [List.replicate 900 97, List.replicate 1000 97] Loader.elf.alloc).bind
      (allocList 0 [])).isSome = true
    rw [hpointers, halloc]
    rfl
  have halloc : largeCall.alloc = Loader.elf.alloc := rfl
  obtain ⟨hargp, henvp, hbounded⟩ := saved_bounded hargs henvs (.inl rfl) halloc hfits
  refine ⟨hargs, henvs, hfits, fun h => ?_⟩
  have hready := setupstack_ready_iff (.gba .plain) hbounded .elf fun _ => 0
  rw [hargp, henvp] at hready
  have hsuits := (hready.mp h).1 rfl
  have hbytes : bytes [List.replicate 900 97, List.replicate 1000 97] = 1902 := by
    rw [bytes_cons, bytes_cons, hlength, hlength]
    rfl
  have hlist : ∀ strs, largeCall.args strs = strs := fun _ => rfl
  have hroundup : roundup (1902 + 0) = 1904 := rfl
  have hgap : (Port.gba .plain).gap = 256 := rfl
  have hnone : bytes [] = 0 := rfl
  rw [hlist, hbytes, hnone, hroundup, hgap] at hsuits
  exact absurd hsuits (by decide)

end DiscoBsd.Exec
