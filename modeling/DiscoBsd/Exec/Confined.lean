import DiscoBsd.Exec.Loader
import Mathlib.Logic.Basic

/-!
# Where an executable is loaded

`Confined` says of an outcome of `exec_check` that a failure leaves the process as it was, and that a
success has the image below the stack, loads and clears inside the user window only, and starts inside
the image. The main theorem, `exec_confined_iff`, says for which files that is so.
-/

namespace DiscoBsd.Exec

variable {w : Window} {img : Image} {p : Process}

def Memsect.Inside (w : Window) (s : Memsect) : Prop :=
  user_data_start ≤ s.vaddr ∧ s.vaddr + s.len ≤ w.user_data_end

/-- What may become of the calling process. -/
def Confined (w : Window) (p : Process) : Outcome → Prop
  | .failed _ p' => p' = p
  | .loaded epp p' =>
      epp.data.vaddr + epp.data.len + epp.bss.len ≤ epp.stack.vaddr ∧
        (∀ s ∈ p'.touched, s ∈ p.touched ∨ s.Inside w) ∧
        epp.data.vaddr ≤ p'.pc / 2 * 2 ∧ p'.pc / 2 * 2 < epp.data.vaddr + epp.data.len

/-- A process that already has the sizes that an ELF file asks for. -/
def Process.HasSizes (w : Window) (img : Image) (p : Process) : Prop :=
  p.pr_scale = 0 ∧ p.SVFORK = false ∧ p.p_dsize = img.ph.p_memsz ∧ p.p_daddr = user_data_start ∧
    p.p_ssize = SSIZE + 4 * NBPW ∧ p.p_saddr = w.user_data_end - (SSIZE + 4 * NBPW)

/-- The files for which it becomes so. An `a.out` file whose entry point is accepted must not have data
and bss that reach beyond the address space, unless the wrapped end lies in the stack. An ELF file that
passes `exec_estab` must have a size that does not wrap and an entry point in the file data; without
file data or without bss it is refused, but then the process has its sizes. -/
def Image.Fits (w : Window) (p : Process) (img : Image) : Prop :=
  if img.IsAout then
    (img.aoutParams w).entryInside img.a_entry →
      user_data_start + wrap (img.a_data + img.a_text) + img.a_bss < 4294967296 ∨
        w.user_data_end - img.args.stack <
          user_data_start + wrap (img.a_data + img.a_text) + img.a_bss - 4294967296
  else if img.IsElf ∧ img.ph.p_vaddr = user_data_start ∧
      wrap (img.ph.p_memsz + (SSIZE + 4 * NBPW)) ≤ w.MAXMEM then
    if 0 < img.ph.p_filesz ∧ img.ph.p_filesz < img.ph.p_memsz then
      img.ph.p_memsz + (SSIZE + 4 * NBPW) < 4294967296 ∧
        user_data_start ≤ img.e_entry / 2 * 2 ∧
        img.e_entry / 2 * 2 < user_data_start + img.ph.p_filesz
    else p.HasSizes w img
  else True

/-! ## Sizes -/

theorem half_lt (img : Image) (off : Nat) : img.half off < 65536 := by
  have hlow := (img.hdr off).toNat_lt
  have hhigh := (img.hdr (off + 1)).toNat_lt
  rw [Image.half]
  omega

theorem word_lt (img : Image) (off : Nat) : img.word off < 4294967296 := by
  have hlow := half_lt img off
  have hhigh := half_lt img (off + 2)
  rw [Image.word]
  omega

theorem MAXMEM_bounds (w : Window) : 65536 ≤ w.MAXMEM ∧ w.MAXMEM ≤ 254976 := by
  cases w
  · exact ⟨Nat.le_refl _, by decide⟩
  · exact ⟨by decide, Nat.le_refl _⟩

theorem user_data_start_ne : user_data_start ≠ NO_ADDR := by decide

theorem stack_le (args : Args) : args.stack ≤ 20000 ∧ args.stack ≥ 2048 := by
  have hfits := args.fits
  simp only [NBPW, MAXBSIZE] at hfits
  simp only [Args.stack, roundup, wrap, SSIZE, NBPW]
  omega

/-- An `a.out` file is no ELF file. -/
theorem not_isElf_of_isAout (h : img.IsAout) : ¬ img.IsElf := by
  intro helf
  have hmagic : img.word 0 % 65536 = 263 := h.2.2.2
  have hfirst : some 0x7f = some (img.hdr 0) := helf.2.1 0 (by decide)
  have hbyte : (img.hdr 0).toNat = 0x7f := by
    rw [← Option.some.inj hfirst]
    rfl
  rw [Image.word, Image.half, hbyte] at hmagic
  omega

/-! ## What is touched -/

theorem touched_touch (p : Process) (t s : Memsect) :
    s ∈ (p.touch t).touched ↔ s = t ∨ s ∈ p.touched := List.mem_cons

theorem touched_pc (p : Process) (entry : Nat) :
    ({ p with pc := entry } : Process).touched = p.touched := rfl

theorem touched_clear (img : Image) (epp : Params) (p : Process) (s : Memsect) :
    s ∈ (exec_clear img epp p).touched ↔
      s = epp.stack ∨ (0 < epp.heap.len ∧ s = epp.heap) ∨ (0 < epp.bss.len ∧ s = epp.bss) ∨
        s ∈ p.touched := by
  rw [exec_clear]
  by_cases hbss : epp.bss.len > 0 <;> by_cases hheap : epp.heap.len > 0 <;>
    by_cases htraced : p.traced = true <;>
    simp [hbss, hheap, htraced, Process.touch]

theorem touched_estab (w : Window) (epp : Params) (p : Process) :
    (exec_estab w epp p).2.touched = p.touched := by
  rw [exec_estab]
  split
  · rfl
  · split
    · rfl
    · split <;> rfl

/-! ## a.out files -/

/-- What `exec_aout_check` leaves of a process. -/
def Process.afterAout (w : Window) (img : Image) (p : Process) : Process :=
  let epp := img.aoutParams w
  { exec_clear img epp ((exec_estab w epp p).2.touch ⟨epp.data.vaddr, epp.data.len⟩) with
    pc := img.a_entry }

theorem exec_check_of_isAout (h : img.IsAout) :
    exec_check w img p =
      if ¬ (img.aoutParams w).entryInside img.a_entry then .failed .ENOEXEC p
      else if (img.aoutParams w).heap.vaddr > (img.aoutParams w).stack.vaddr then .failed .ENOMEM p
      else .loaded (img.aoutParams w) (p.afterAout w img) := by
  rw [exec_check, exec_aout_check, if_neg (not_not.mpr h)]
  dsimp only
  by_cases hentry : (img.aoutParams w).entryInside img.a_entry
  · rw [if_neg (not_not.mpr hentry), if_neg (not_not.mpr hentry)]
    by_cases hheap : (img.aoutParams w).heap.vaddr > (img.aoutParams w).stack.vaddr
    · rw [if_pos hheap, if_pos hheap]
    · rw [if_neg hheap, if_neg hheap]
      rfl
  · rw [if_pos hentry, if_pos hentry]
    show exec_elf_check w img p = _
    rw [exec_elf_check, if_pos (not_isElf_of_isAout h)]

/-- An accepted `a.out` file is confined if its end is a number below `2 ^ 32`. -/
theorem confined_aout_iff (hentry : (img.aoutParams w).entryInside img.a_entry)
    (hheap : ¬ (img.aoutParams w).heap.vaddr > (img.aoutParams w).stack.vaddr) :
    Confined w p (.loaded (img.aoutParams w) (p.afterAout w img)) ↔
      user_data_start + wrap (img.a_data + img.a_text) + img.a_bss < 4294967296 := by
  have hmem := MAXMEM_bounds w
  have hstack := stack_le img.args
  have hbss : img.a_bss < 4294967296 := word_lt img 12
  have hdata : wrap (img.a_data + img.a_text) < 4294967296 := Nat.mod_lt _ (by decide)
  obtain ⟨hlow, hhigh⟩ := hentry
  simp only [Image.aoutParams, Window.user_data_end, user_data_start] at hlow hhigh hheap
  have hstackAddr : wrap (33560576 + w.MAXMEM + 4294967296 - img.args.stack) =
      33560576 + w.MAXMEM - img.args.stack := by
    rw [wrap]
    omega
  rw [hstackAddr] at hheap
  generalize hD : wrap (img.a_data + img.a_text) = D at *
  constructor
  · intro hconfined
    have hend := hconfined.1
    simp only [Image.aoutParams, Window.user_data_end, user_data_start, hstackAddr, hD] at hend ⊢
    omega
  · intro hsum
    have hbssAddr : wrap (33560576 + D) = 33560576 + D := Nat.mod_eq_of_lt (by
      simp only [user_data_start] at hsum
      omega)
    have hheapAddr : wrap (33560576 + D + img.a_bss) = 33560576 + D + img.a_bss :=
      Nat.mod_eq_of_lt hsum
    rw [hbssAddr] at hhigh hheap
    rw [hheapAddr] at hheap
    refine ⟨?_, fun s hs => ?_, ?_, ?_⟩
    · simp only [Image.aoutParams, Window.user_data_end, user_data_start, hstackAddr, hD]
      omega
    · rw [Process.afterAout] at hs
      dsimp only at hs
      rw [touched_clear, touched_touch, touched_estab] at hs
      simp only [Image.aoutParams, hD] at hs
      rcases hs with rfl | ⟨hpos, -⟩ | ⟨-, rfl⟩ | rfl | hold
      · right
        simp only [Memsect.Inside, Window.user_data_end, user_data_start, hstackAddr]
        omega
      · exact absurd hpos (Nat.lt_irrefl 0)
      · right
        simp only [Memsect.Inside, Window.user_data_end, user_data_start, hbssAddr]
        omega
      · right
        simp only [Memsect.Inside, Window.user_data_end, user_data_start]
        omega
      · exact .inl hold
    · exact hlow
    · simp only [Image.aoutParams, hD, Process.afterAout, user_data_start]
      exact hhigh

/-! ## ELF files -/

/-- What `exec_estab` leaves of a process that it does not refuse. -/
def Process.established (epp : Params) (p : Process) : Process :=
  { p with
    pr_scale := 0
    SVFORK := false
    p_dsize := wrap (epp.data.len + epp.bss.len)
    p_daddr := epp.data.vaddr
    p_ssize := epp.stack.len
    p_saddr := epp.stack.vaddr }

theorem touched_established (epp : Params) (p : Process) :
    (p.established epp).touched = p.touched := rfl

theorem estab_elf (w : Window) (img : Image) (p : Process) :
    exec_estab w (img.elfParams w) p =
      if img.ph.p_vaddr = user_data_start ∧ wrap (img.ph.p_memsz + (SSIZE + 4 * NBPW)) ≤ w.MAXMEM then
        (none, p.established (img.elfParams w))
      else (some .ENOMEM, p) := by
  have hfilesz := img.ph.filesz_lt
  have hmemsz := img.ph.memsz_lt
  have hvaddr := img.ph.vaddr_lt
  have hdata : (img.elfParams w).data.len = img.ph.p_filesz := by
    simp only [Image.elfParams, wrap]
    omega
  have hsum : wrap ((img.elfParams w).text.len + (img.elfParams w).data.len +
      (img.elfParams w).bss.len + (img.elfParams w).heap.len + (img.elfParams w).stack.len) =
      wrap (img.ph.p_memsz + (SSIZE + 4 * NBPW)) := by
    rw [hdata]
    simp only [Image.elfParams, wrap, SSIZE, NBPW]
    omega
  have hfollows : wrap ((img.elfParams w).data.vaddr + (img.elfParams w).data.len) =
      (img.elfParams w).bss.vaddr := by
    rw [hdata]
    rfl
  rw [exec_estab, hsum, hfollows]
  by_cases haddr : img.ph.p_vaddr = user_data_start
  · have hfirst : ¬ ((img.elfParams w).text.vaddr ≠ NO_ADDR ∨ (img.elfParams w).data.vaddr = NO_ADDR ∨
        (img.elfParams w).data.vaddr ≠ user_data_start ∨ (img.elfParams w).stack.vaddr ≠
          wrap (w.user_data_end + 4294967296 - (img.elfParams w).stack.len)) := by
      simp only [Image.elfParams, haddr]
      rintro (hne | heq | hne | hne)
      · exact hne rfl
      · exact absurd heq user_data_start_ne
      · exact hne rfl
      · exact hne rfl
    rw [if_neg hfirst]
    by_cases hmem : wrap (img.ph.p_memsz + (SSIZE + 4 * NBPW)) ≤ w.MAXMEM
    · rw [if_neg (Nat.not_lt.mpr hmem), if_neg (not_not.mpr rfl), if_pos ⟨haddr, hmem⟩]
      rfl
    · rw [if_pos (Nat.lt_of_not_le hmem), if_neg (fun h => hmem h.2)]
  · rw [if_pos (.inr (.inr (.inl haddr))), if_neg (fun h => haddr h.1)]

/-- What `exec_elf_check` leaves of a process. -/
def Process.afterElf (w : Window) (img : Image) (p : Process) : Process :=
  { exec_clear img (img.elfParams w)
      ((p.established (img.elfParams w)).touch ⟨img.ph.p_vaddr, img.ph.p_filesz⟩) with
    pc := img.e_entry }

theorem exec_check_of_not_isAout (h : ¬ img.IsAout) :
    exec_check w img p = exec_elf_check w img p := by
  rw [exec_check, exec_aout_check, if_pos h]

/-- An ELF file that `exec_estab` takes is loaded if it has both file data and bss. -/
theorem exec_elf_check_of_estab (h : img.IsElf) (haddr : img.ph.p_vaddr = user_data_start)
    (hmem : wrap (img.ph.p_memsz + (SSIZE + 4 * NBPW)) ≤ w.MAXMEM) :
    exec_elf_check w img p =
      if 0 < img.ph.p_filesz ∧ img.ph.p_filesz < img.ph.p_memsz then
        .loaded (img.elfParams w) (p.afterElf w img)
      else .failed .ENOEXEC (p.established (img.elfParams w)) := by
  have hfilesz := img.ph.filesz_lt
  have hvaddr := img.ph.vaddr_lt
  have hdata : (img.elfParams w).data = ⟨img.ph.p_vaddr, img.ph.p_filesz⟩ := by
    simp only [Image.elfParams, wrap, Memsect.mk.injEq, true_and]
    omega
  have hmay : (img.elfParams w).mayLoad img.ph ↔
      0 < img.ph.p_filesz ∧ img.ph.p_filesz < img.ph.p_memsz := by
    rw [Params.mayLoad, hdata, haddr]
    constructor
    · rintro ⟨-, hsizes⟩
      omega
    · rintro ⟨hpos, hlt⟩
      exact ⟨⟨user_data_start_ne, Nat.le_refl _, Nat.le_refl _⟩, by omega⟩
  rw [exec_elf_check, if_neg (not_not.mpr h)]
  dsimp only
  rw [estab_elf, if_pos ⟨haddr, hmem⟩]
  dsimp only
  by_cases hsizes : 0 < img.ph.p_filesz ∧ img.ph.p_filesz < img.ph.p_memsz
  · rw [if_neg (not_not.mpr (hmay.mpr hsizes)), if_pos hsizes]
    rfl
  · rw [if_pos (fun hok => hsizes (hmay.mp hok)), if_neg hsizes]

theorem elf_data (w : Window) (img : Image) :
    (img.elfParams w).data = ⟨img.ph.p_vaddr, img.ph.p_filesz⟩ := by
  have hfilesz := img.ph.filesz_lt
  have hvaddr := img.ph.vaddr_lt
  simp only [Image.elfParams, wrap, Memsect.mk.injEq, true_and]
  omega

theorem elf_stack (w : Window) (img : Image) :
    (img.elfParams w).stack = ⟨w.user_data_end - (SSIZE + 4 * NBPW), SSIZE + 4 * NBPW⟩ := by
  have hbounds := MAXMEM_bounds w
  simp only [Image.elfParams, wrap, Window.user_data_end, user_data_start, SSIZE, NBPW,
    Memsect.mk.injEq, and_true]
  omega

theorem elf_bss (w : Window) (hsizes : img.ph.p_filesz ≤ img.ph.p_memsz) :
    (img.elfParams w).bss =
      ⟨wrap (img.ph.p_vaddr + img.ph.p_filesz), img.ph.p_memsz - img.ph.p_filesz⟩ := by
  have hmemsz := img.ph.memsz_lt
  simp only [Image.elfParams, wrap, Memsect.mk.injEq, true_and]
  omega

theorem pc_afterElf (w : Window) (img : Image) (p : Process) :
    (p.afterElf w img).pc = img.e_entry := rfl

theorem touched_afterElf (w : Window) (img : Image) (p : Process) (s : Memsect) :
    s ∈ (p.afterElf w img).touched ↔
      s = (img.elfParams w).stack ∨ (0 < (img.elfParams w).bss.len ∧ s = (img.elfParams w).bss) ∨
        s = ⟨img.ph.p_vaddr, img.ph.p_filesz⟩ ∨ s ∈ p.touched := by
  have hheap : (img.elfParams w).heap.len = 0 := rfl
  have hclear := touched_clear img (img.elfParams w)
    ((p.established (img.elfParams w)).touch ⟨img.ph.p_vaddr, img.ph.p_filesz⟩) s
  rw [hheap, touched_touch, touched_established] at hclear
  simp only [Nat.lt_irrefl, false_and, false_or] at hclear
  rwa [Process.afterElf, touched_pc]

theorem exec_elf_check_of_not_estab (h : img.IsElf)
    (hestab : ¬ (img.ph.p_vaddr = user_data_start ∧
      wrap (img.ph.p_memsz + (SSIZE + 4 * NBPW)) ≤ w.MAXMEM)) :
    exec_elf_check w img p = .failed .ENOMEM p := by
  rw [exec_elf_check, if_neg (not_not.mpr h)]
  dsimp only
  rw [estab_elf, if_neg hestab]

/-- A loaded ELF file is confined if its size does not wrap and its entry point is in the file data. -/
theorem confined_elf_iff (haddr : img.ph.p_vaddr = user_data_start)
    (hmem : wrap (img.ph.p_memsz + (SSIZE + 4 * NBPW)) ≤ w.MAXMEM)
    (hsizes : img.ph.p_filesz < img.ph.p_memsz) :
    Confined w p (.loaded (img.elfParams w) (p.afterElf w img)) ↔
      img.ph.p_memsz + (SSIZE + 4 * NBPW) < 4294967296 ∧
        user_data_start ≤ img.e_entry / 2 * 2 ∧
        img.e_entry / 2 * 2 < user_data_start + img.ph.p_filesz := by
  have hbounds := MAXMEM_bounds w
  have hmemsz := img.ph.memsz_lt
  rw [Confined, elf_data, elf_stack, elf_bss w (Nat.le_of_lt hsizes), pc_afterElf, haddr]
  simp only [wrap, SSIZE, NBPW] at hmem
  simp only [Window.user_data_end, user_data_start, SSIZE, NBPW]
  constructor
  · rintro ⟨hend, -, hlow, hhigh⟩
    exact ⟨by omega, hlow, hhigh⟩
  · rintro ⟨hsum, hlow, hhigh⟩
    refine ⟨by omega, fun s hs => ?_, hlow, hhigh⟩
    rw [touched_afterElf, elf_bss w (Nat.le_of_lt hsizes), elf_stack, haddr] at hs
    rcases hs with rfl | ⟨-, rfl⟩ | rfl | hold
    · right
      simp only [Memsect.Inside, Window.user_data_end, user_data_start, SSIZE, NBPW]
      omega
    · right
      simp only [Memsect.Inside, Window.user_data_end, user_data_start, wrap]
      omega
    · right
      simp only [Memsect.Inside, Window.user_data_end, user_data_start]
      omega
    · exact .inl hold

/-- An ELF file that is refused after `exec_estab` leaves a process unchanged if it has its sizes. -/
theorem established_elf_iff (haddr : img.ph.p_vaddr = user_data_start) :
    p.established (img.elfParams w) = p ↔ p.HasSizes w img := by
  have hfilesz := img.ph.filesz_lt
  have hmemsz := img.ph.memsz_lt
  have hdsize : wrap ((img.elfParams w).data.len + (img.elfParams w).bss.len) = img.ph.p_memsz := by
    rw [elf_data]
    simp only [Image.elfParams, wrap]
    omega
  rw [Process.established, hdsize, elf_stack, elf_data, haddr, Process.HasSizes]
  cases p
  simp only [Process.mk.injEq]
  constructor
  · rintro ⟨rfl, rfl, rfl, rfl, rfl, rfl, -⟩
    exact ⟨rfl, rfl, rfl, rfl, rfl, rfl⟩
  · rintro ⟨hscale, hfork, hdsize, hdaddr, hssize, hsaddr⟩
    simp only [hscale, hfork, hdsize, hdaddr, hssize, hsaddr, and_self]

/-! ## All files -/

/-- The wrapped end of an accepted `a.out` file is above the stack only if its end does not wrap, or the
wrapped end lies in the stack. -/
theorem aout_end (hentry : (img.aoutParams w).entryInside img.a_entry)
    (hheap : (img.aoutParams w).heap.vaddr > (img.aoutParams w).stack.vaddr) :
    user_data_start + wrap (img.a_data + img.a_text) + img.a_bss < 4294967296 ∨
      w.user_data_end - img.args.stack <
        user_data_start + wrap (img.a_data + img.a_text) + img.a_bss - 4294967296 := by
  have hmem := MAXMEM_bounds w
  have hstack := stack_le img.args
  have hbss : img.a_bss < 4294967296 := word_lt img 12
  have hdata : wrap (img.a_data + img.a_text) < 4294967296 := Nat.mod_lt _ (by decide)
  obtain ⟨hlow, hhigh⟩ := hentry
  simp only [Image.aoutParams, Window.user_data_end, user_data_start] at hlow hhigh hheap ⊢
  generalize hD : wrap (img.a_data + img.a_text) = D at *
  simp only [wrap] at hlow hhigh hheap ⊢
  omega

/-- The wrapped end of a loaded `a.out` file is not in the stack. -/
theorem aout_below (hentry : (img.aoutParams w).entryInside img.a_entry)
    (hheap : ¬ (img.aoutParams w).heap.vaddr > (img.aoutParams w).stack.vaddr) :
    ¬ w.user_data_end - img.args.stack <
      user_data_start + wrap (img.a_data + img.a_text) + img.a_bss - 4294967296 := by
  have hmem := MAXMEM_bounds w
  have hstack := stack_le img.args
  have hbss : img.a_bss < 4294967296 := word_lt img 12
  have hdata : wrap (img.a_data + img.a_text) < 4294967296 := Nat.mod_lt _ (by decide)
  obtain ⟨hlow, hhigh⟩ := hentry
  simp only [Image.aoutParams, Window.user_data_end, user_data_start] at hlow hhigh hheap ⊢
  generalize hD : wrap (img.a_data + img.a_text) = D at *
  simp only [wrap] at hlow hhigh hheap ⊢
  omega

/-- `exec_check` confines a file exactly if it fits. -/
theorem exec_confined_iff (w : Window) (img : Image) (p : Process) :
    Confined w p (exec_check w img p) ↔ img.Fits w p := by
  rw [Image.Fits]
  by_cases haout : img.IsAout
  · rw [if_pos haout, exec_check_of_isAout haout]
    by_cases hentry : (img.aoutParams w).entryInside img.a_entry
    · rw [if_neg (not_not.mpr hentry)]
      by_cases hheap : (img.aoutParams w).heap.vaddr > (img.aoutParams w).stack.vaddr
      · rw [if_pos hheap]
        exact iff_of_true rfl (fun _ => aout_end hentry hheap)
      · rw [if_neg hheap, confined_aout_iff hentry hheap]
        exact ⟨fun hsum _ => .inl hsum, fun h => (h hentry).resolve_right (aout_below hentry hheap)⟩
    · rw [if_pos hentry]
      exact iff_of_true rfl (fun h => absurd h hentry)
  · rw [if_neg haout, exec_check_of_not_isAout haout]
    by_cases helf : img.IsElf
    · by_cases hestab : img.ph.p_vaddr = user_data_start ∧
          wrap (img.ph.p_memsz + (SSIZE + 4 * NBPW)) ≤ w.MAXMEM
      · obtain ⟨haddr, hmem⟩ := hestab
        rw [if_pos ⟨helf, haddr, hmem⟩, exec_elf_check_of_estab helf haddr hmem]
        by_cases hsizes : 0 < img.ph.p_filesz ∧ img.ph.p_filesz < img.ph.p_memsz
        · rw [if_pos hsizes, if_pos hsizes]
          exact confined_elf_iff haddr hmem hsizes.2
        · rw [if_neg hsizes, if_neg hsizes]
          exact established_elf_iff haddr
      · rw [if_neg (fun h => hestab h.2), exec_elf_check_of_not_estab helf hestab]
        exact iff_of_true rfl trivial
    · rw [if_neg (fun h => helf h.1), exec_elf_check, if_pos helf]
      exact iff_of_true rfl trivial

/-- No arguments. -/
def Args.none : Args := ⟨0, 0, 0, 0, Nat.zero_le _⟩

def Phdr.none : Phdr := ⟨0, 0, 0, 0, 0, by decide, by decide, by decide⟩

/-- A process of a kilobyte of data. -/
def Process.small : Process :=
  ⟨1, false, 1024, user_data_start, 2048, 0x02011000, 0, 1024, 2048, false, 5, 5, 5, 5, false,
    user_data_start, []⟩

/-- An `a.out` file of 16 bytes of text with a bss of 4294967295. -/
def hugeBss : Image where
  hdr i := [7, 1, 0, 0, 16, 0, 0, 0, 0, 0, 0, 0, 255, 255, 255, 255, 0, 0, 0, 0, 0, 0, 0, 0, 0, 0, 0, 0,
    0, 0x18, 0, 2].getD i 0
  hdr_len := 64
  ph := Phdr.none
  args := Args.none
  uid := 5
  gid := 5

/-- An ELF file of 16 bytes without bss. -/
def noBss : Image where
  hdr i := [0x7f, 69, 76, 70, 1, 1, 1, 0, 0, 0, 0, 0, 0, 0, 0, 0, 2, 0, 40, 0, 1, 0, 0, 0, 0, 0x18, 0, 2,
    52, 0, 0, 0, 0, 0, 0, 0, 0, 0, 0, 0, 52, 0, 32, 0, 1, 0, 40, 0, 1, 0].getD i 0
  hdr_len := 64
  ph := ⟨1, user_data_start, 16, 16, 7, by decide, by decide, by decide⟩
  args := Args.none
  uid := 5
  gid := 5

/-- The first is loaded although its bss runs through all of the address space, and the second is refused
after the process has been given the sizes of its image. -/
theorem exec_not_confined :
    ¬ Confined .plain Process.small (exec_check .plain hugeBss Process.small) ∧
      ¬ Confined .plain Process.small (exec_check .plain noBss Process.small) := by
  constructor
  · have hloaded : exec_check .plain hugeBss Process.small =
        .loaded (hugeBss.aoutParams .plain) (Process.small.afterAout .plain hugeBss) := by
      rw [exec_check_of_isAout (by decide), if_neg (by decide), if_neg (by decide)]
    rw [hloaded, confined_aout_iff (by decide) (by decide)]
    decide
  · have hfailed : exec_check .plain noBss Process.small =
        .failed .ENOEXEC (Process.small.established (noBss.elfParams .plain)) := by
      rw [exec_check_of_not_isAout (by decide), exec_elf_check_of_estab (by decide) rfl (by decide),
        if_neg (by decide)]
    rw [hfailed, Confined, established_elf_iff rfl]
    exact fun h => absurd h.1 (by decide)

end DiscoBsd.Exec
