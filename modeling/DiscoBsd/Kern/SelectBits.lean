import DiscoBsd.Kern.UserCopy

/-!
# The bit arrays of `select`

How `select1` copies its descriptor sets in and out, for every `nd`, and how `selscan` goes over them. An
index outside of an array makes the model fail, so that `selscan_in_bounds` says that there is none.
-/

namespace DiscoBsd.Kern

/-- `NOFILE`. -/
def nofile : Nat := 30

/-- `howmany`, on unsigned integers as `NFDBITS` is one. -/
def howmany (x y : BitVec 32) : BitVec 32 := (x + (y - 1)) / y

/-- `nd`, cut down to `NOFILE`. -/
def clampNd (nd : BitVec 32) : BitVec 32 := if (nofile : Int) < nd.toInt then 30#32 else nd

/-- The size that `select1` copies: `ni * sizeof(fd_mask)`. -/
def maskBytes (nd : BitVec 32) : BitVec 32 := howmany (clampNd nd) 32#32 * 4#32

/-- `getbits`: from the user's set, if there is one. -/
def getbits (w : Window) (nd : BitVec 32) (name ibits : Caddr) (m : Memory) :
    Option CopyError × Memory :=
  if name = 0#32 then (none, m) else copyin w name ibits (maskBytes nd) m

/-- `putbits`: to the user's set, if there is one. -/
def putbits (w : Window) (nd : BitVec 32) (name obits : Caddr) (m : Memory) :
    Option CopyError × Memory :=
  if name = 0#32 then (none, m) else copyout w obits name (maskBytes nd) m

/-- The loop of `ffs`. -/
def ffsFrom : Nat → BitVec 32 → Nat → Nat
  | 0, _, cnt => cnt
  | n + 1, mask, cnt => if mask &&& 1#32 = 0#32 then ffsFrom n (mask >>> 1) (cnt + 1) else cnt

/-- `ffs`: the first bit that is set, counted from one. -/
def ffs (mask : BitVec 32) : Nat := if mask = 0#32 then 0 else ffsFrom 32 mask 1

/-- The flag for the `select` function of a file. -/
inductive SelectFlag where
  | FREAD
  | FWRITE
  | none

inductive ScanError where
  | EBADF

variable {File : Type}

/-- `u.u_ofile[fd]`. -/
def ofileAt (u_ofile : Fin nofile → Option File) (fd : Int) : Option (Option File) :=
  if h : 0 ≤ fd ∧ fd < nofile then
    some (u_ofile ⟨fd.toNat, by omega⟩)
  else none

/-- `fds_bits[n / NFDBITS]`, of an array with one mask. -/
def fdsBits (set : BitVec 32) (n : Int) : Option (BitVec 32) := if n / 32 = 0 then some set else none

/-- `FD_SET`. -/
def fdSet (n : Int) (set : BitVec 32) : Option (BitVec 32) :=
  (fdsBits set n).map fun bits => bits ||| 1#32 <<< (n % 32).toNat

theorem and_one_toNat (mask : BitVec 32) : (mask &&& 1#32).toNat = mask.toNat % 2 := by
  rw [BitVec.toNat_and]
  exact Nat.and_one_is_mod mask.toNat

theorem ffsFrom_spec {n : Nat} {mask : BitVec 32} (cnt : Nat) (hne : mask ≠ 0#32)
    (hlt : mask.toNat < 2 ^ n) : ∃ k, ffsFrom n mask cnt = cnt + k ∧ mask.getLsbD k = true := by
  induction n generalizing mask cnt with
  | zero =>
      have hzero : mask = 0#32 := BitVec.eq_of_toNat_eq (by simpa using hlt)
      exact absurd hzero hne
  | succ n ih =>
      have hand := and_one_toNat mask
      unfold ffsFrom
      split
      next heven =>
        have hshift : (mask >>> 1).toNat = mask.toNat / 2 := by
          rw [BitVec.toNat_ushiftRight, Nat.shiftRight_eq_div_pow]
        have hrest : mask >>> 1 ≠ 0#32 := by
          intro hzero
          rw [hzero] at hshift
          rw [heven] at hand
          refine hne (BitVec.eq_of_toNat_eq ?_)
          simp only [BitVec.toNat_ofNat, Nat.zero_mod] at *
          omega
        obtain ⟨k, hk, hset⟩ := ih (cnt + 1) hrest (by omega)
        refine ⟨k + 1, by omega, ?_⟩
        rw [BitVec.getLsbD_ushiftRight] at hset
        rwa [Nat.add_comm]
      next hodd =>
        refine ⟨0, rfl, ?_⟩
        rw [BitVec.getLsbD, Nat.testBit_zero, decide_eq_true_iff]
        by_contra heven
        refine hodd (BitVec.eq_of_toNat_eq ?_)
        simp only [BitVec.toNat_ofNat, Nat.zero_mod]
        omega

theorem ffs_spec {mask : BitVec 32} {j : Nat} (h : ffs mask = j + 1) : mask.getLsbD j = true := by
  unfold ffs at h
  split at h
  · cases h
  next hne =>
    obtain ⟨k, hk, hset⟩ := ffsFrom_spec 1 hne mask.isLt
    have hkj : k = j := by omega
    exact hkj ▸ hset

/-- A bit that is cleared makes the mask smaller. -/
theorem clear_lt {bits : BitVec 32} {j : Nat} (h : bits.getLsbD j = true) :
    (bits &&& ~~~(1#32 <<< j)).toNat < bits.toNat := by
  have hle : (bits &&& ~~~(1#32 <<< j)).toNat ≤ bits.toNat := by
    rw [BitVec.toNat_and]
    exact Nat.and_le_left
  refine Nat.lt_of_le_of_ne hle fun heq => ?_
  have hbit : (bits &&& ~~~(1#32 <<< j)).getLsbD j = true := by
    rw [BitVec.eq_of_toNat_eq heq]
    exact h
  simp at hbit

/-- The `while` loop of `selscan`, over a mask. -/
def scanMask (u_ofile : Fin nofile → Option File) (ready : File → Bool) (nfd i : Int)
    (bits obits : BitVec 32) (n : Nat) : Option (Except ScanError (BitVec 32 × Nat)) :=
  match _ : ffs bits with
  | 0 => some (.ok (obits, n))
  | j + 1 =>
      if i + j < nfd then
        match ofileAt u_ofile (i + j) with
        | none => none
        | some none => some (.error .EBADF)
        | some (some fp) =>
            if ready fp then
              match fdSet (i + j) obits with
              | none => none
              | some obits => scanMask u_ofile ready nfd i (bits &&& ~~~(1#32 <<< j)) obits (n + 1)
            else scanMask u_ofile ready nfd i (bits &&& ~~~(1#32 <<< j)) obits n
      else some (.ok (obits, n))
  termination_by bits.toNat
  decreasing_by all_goals exact clear_lt (ffs_spec ‹_›)

/-- The `for` loop of `selscan`, over a set. -/
def scanSet (u_ofile : Fin nofile → Option File) (ready : File → Bool) (nfd i : Int)
    (ibits obits : BitVec 32) (n : Nat) : Option (Except ScanError (BitVec 32 × Nat)) :=
  if i < nfd then
    match fdsBits ibits i with
    | none => none
    | some bits =>
        match scanMask u_ofile ready nfd i bits obits n with
        | none => none
        | some (.error e) => some (.error e)
        | some (.ok (obits, n)) => scanSet u_ofile ready nfd (i + 32) ibits obits n
  else some (.ok (obits, n))
  termination_by (nfd - i).toNat
  decreasing_by omega

/-- The flag that `selscan` uses for each set. -/
def flagOf : Fin 3 → SelectFlag
  | 0 => .FREAD
  | 1 => .FWRITE
  | 2 => .none

/-- The outer loop of `selscan`, over the sets that are left. -/
def scanSets (u_ofile : Fin nofile → Option File) (ready : File → SelectFlag → Bool) (nfd : Int)
    (ibits : Fin 3 → BitVec 32) :
    List (Fin 3) → (Fin 3 → BitVec 32) → Nat →
      Option (Except ScanError ((Fin 3 → BitVec 32) × Nat))
  | [], obits, n => some (.ok (obits, n))
  | which :: sets, obits, n =>
      match scanSet u_ofile (fun fp => ready fp (flagOf which)) nfd 0 (ibits which) (obits which) n with
      | none => none
      | some (.error e) => some (.error e)
      | some (.ok (set, n)) =>
          scanSets u_ofile ready nfd ibits sets (fun s => if s = which then set else obits s) n

/-- `selscan`: the sets of those that are ready, and their number. -/
def selscan (u_ofile : Fin nofile → Option File) (ready : File → SelectFlag → Bool)
    (ibits obits : Fin 3 → BitVec 32) (nfd : Int) :
    Option (Except ScanError ((Fin 3 → BitVec 32) × Nat)) :=
  scanSets u_ofile ready nfd ibits [0, 1, 2] obits 0

/-! ## Indices -/

variable {u_ofile : Fin nofile → Option File} {nfd i : Int} {n : Nat}

theorem ofileAt_ne_none {fd : Int} (hzero : 0 ≤ fd) (hlt : fd < nofile) :
    ofileAt u_ofile fd ≠ none := by
  unfold ofileAt
  rw [dif_pos ⟨hzero, hlt⟩]
  exact nofun

theorem fdsBits_eq {set : BitVec 32} {fd : Int} (hzero : 0 ≤ fd) (hlt : fd < nofile) :
    fdsBits set fd = some set := by
  have hfirst : fd / 32 = 0 := by
    unfold nofile at hlt
    omega
  unfold fdsBits
  rw [if_pos hfirst]

theorem scanMask_in_bounds {ready : File → Bool} {bits obits : BitVec 32} (hzero : 0 ≤ i)
    (hnfd : nfd ≤ nofile) : scanMask u_ofile ready nfd i bits obits n ≠ none := by
  fun_induction scanMask u_ofile ready nfd i bits obits n with
  | case1 => exact nofun
  | case2 bits obits n j hffs hlt hnone => exact absurd hnone (ofileAt_ne_none (by omega) (by omega))
  | case3 => exact nofun
  | case4 bits obits n j hffs hlt fp hfp hready hnone =>
      rw [fdSet, fdsBits_eq (by omega) (by omega)] at hnone
      cases hnone
  | case5 bits obits n j hffs hlt fp hfp hready set hset ih => exact ih
  | case6 bits obits n j hffs hlt fp hfp hready ih => exact ih
  | case7 => exact nofun

theorem scanSet_in_bounds {ready : File → Bool} {ibits obits : BitVec 32} (hzero : 0 ≤ i)
    (hnfd : nfd ≤ nofile) : scanSet u_ofile ready nfd i ibits obits n ≠ none := by
  fun_induction scanSet u_ofile ready nfd i ibits obits n with
  | case1 i obits n hlt hnone =>
      rw [fdsBits_eq hzero (by omega)] at hnone
      cases hnone
  | case2 i obits n hlt bits hbits hnone => exact absurd hnone (scanMask_in_bounds hzero hnfd)
  | case3 => exact nofun
  | case4 i obits n hlt bits hbits set n' hscan ih => exact ih (by omega)
  | case5 => exact nofun

/-- `selscan` stays within its arrays. -/
theorem selscan_in_bounds {ready : File → SelectFlag → Bool} {ibits obits : Fin 3 → BitVec 32}
    (hnfd : nfd ≤ nofile) : selscan u_ofile ready ibits obits nfd ≠ none := by
  have hsets : ∀ sets obits n, scanSets u_ofile ready nfd ibits sets obits n ≠ none := by
    intro sets
    induction sets with
    | nil => exact fun _ _ => nofun
    | cons which sets ih =>
        intro obits n
        unfold scanSets
        split
        next hnone => exact absurd hnone (scanSet_in_bounds (Int.le_refl 0) hnfd)
        · exact nofun
        · exact ih _ _
  exact hsets _ _ _

/-! ## Sizes -/

theorem clampNd_toInt_le (nd : BitVec 32) : (clampNd nd).toInt ≤ nofile := by
  unfold clampNd
  split
  · decide
  · omega

/-- A set of at most one mask, or a size that no window has. -/
theorem maskBytes_range (nd : BitVec 32) :
    (maskBytes nd).toNat ≤ 4 ∨ 2 ^ 28 ≤ (maskBytes nd).toNat ∧ (maskBytes nd).toNat ≤ 2 ^ 29 := by
  have hle := clampNd_toInt_le nd
  have hlt := (clampNd nd).isLt
  have hmany : (howmany (clampNd nd) 32#32).toNat = ((clampNd nd).toNat + 31) % 2 ^ 32 / 32 := by
    unfold howmany
    rw [BitVec.toNat_udiv, BitVec.toNat_add]
    rfl
  have hbytes : (maskBytes nd).toNat = ((clampNd nd).toNat + 31) % 2 ^ 32 / 32 * 4 % 2 ^ 32 := by
    unfold maskBytes
    rw [BitVec.toNat_mul, hmany]
    rfl
  unfold nofile at hle
  rw [BitVec.toInt_eq_toNat_cond] at hle
  rw [hbytes]
  split at hle <;> omega

/-- The copy of a set fails, or it is of `sizeof(fd_set)` bytes at most and of user memory. -/
def FewBytes (w : Window) (name source dest : Caddr) (m : Memory)
    (result : Option CopyError × Memory) : Prop :=
  result = (some .EFAULT, m) ∨
    ∃ k : BitVec 32, k.toNat ≤ 4 ∧ result = (none, bcopy source dest k.toNat m) ∧ w.Inside name k

theorem fewBytes_copy (w : Window) (nd : BitVec 32) (name source dest : Caddr) (m : Memory) :
    FewBytes w name source dest m
      (if name = 0#32 then (none, m)
        else if endsBad w name (maskBytes nd) then (some .EFAULT, m)
        else (none, bcopy source dest (maskBytes nd).toNat m)) := by
  split
  · exact Or.inr ⟨0#32, by decide, rfl, fun i hi => absurd hi (Nat.not_lt_zero i)⟩
  · split
    · exact Or.inl rfl
    next hends =>
      have hends : endsBad w name (maskBytes nd) = false := (Bool.not_eq_true _).mp hends
      have hrange := maskBytes_range nd
      have hstop := w.stop_toNat
      have hstart : userDataStart.toNat = 33560576 := by decide
      obtain ⟨⟨hlow, hhigh⟩, hlow', hhigh'⟩ := endsBad_eq_false.mp hends
      -- a size that comes from a negative `nd` ends outside of the window
      have hfew : (maskBytes nd).toNat ≤ 4 := by omega
      exact Or.inr ⟨maskBytes nd, hfew, rfl, inside_of_ends hends (by omega)⟩

/-- The copies of user memory are safe for the ranges that do not come back to the window, and for no
others; those of `select1` always are, and `selscan` stays within its arrays. -/
theorem user_copies_safe (w : Window) (m : Memory) :
    (∀ addr, baduaddr w addr = false ↔ userDataStart ≤ addr ∧ addr < w.stop) ∧
      (∀ source dest nbytes,
        CopySafe w source nbytes m (copyin w source dest nbytes m) ↔ NotAround w source nbytes) ∧
      (∀ source dest nbytes,
        CopySafe w dest nbytes m (copyout w source dest nbytes m) ↔ NotAround w dest nbytes) ∧
      (∀ nd name ibits, FewBytes w name name ibits m (getbits w nd name ibits m)) ∧
      (∀ nd name obits, FewBytes w name obits name m (putbits w nd name obits m)) ∧
      ∀ (File : Type) (u_ofile : Fin nofile → Option File) (ready : File → SelectFlag → Bool)
        (ibits obits : Fin 3 → BitVec 32) (nd : BitVec 32),
        selscan u_ofile ready ibits obits (clampNd nd).toInt ≠ none :=
  ⟨fun _ => baduaddr_eq_false,
    fun source dest nbytes => copyin_safe_iff w source dest nbytes m,
    fun source dest nbytes => copyout_safe_iff w source dest nbytes m,
    fun nd name ibits => fewBytes_copy w nd name name ibits m,
    fun nd name obits => fewBytes_copy w nd name obits name m,
    fun _ _ _ _ _ nd => selscan_in_bounds (clampNd_toInt_le nd)⟩

/-- A range of nearly all addresses passes the check of `copyin`. -/
theorem copyin_around : ∃ (w : Window) (m : Memory),
    ¬ CopySafe w 0x02001810#32 0xfffffff8#32 m
      (copyin w 0x02001810#32 0x03000000#32 0xfffffff8#32 m) := by
  refine ⟨⟨_, Or.inl rfl⟩, fun _ => 0, ?_⟩
  intro hsafe
  rcases copySafe_iff _ |>.mp hsafe with hbad | hshort
  · exact absurd hbad (by decide)
  · exact absurd hshort (by decide)

end DiscoBsd.Kern
