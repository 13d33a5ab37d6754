import DiscoBsd.Tcp.Sized

/-!
# The options of a SYN

A passive open takes the segment size from the options of the `SYN`. The model reads a header
`th`, whatever lies behind its `thlen` bytes, and keeps the positions that the scan looks at.
`syn_options_safe_iff` says for which options the scan stays inside the header and leaves a
segment size that `tcp_output` can use.
-/

namespace DiscoBsd.Tcp

open Lib

/-- `get16`. -/
def get16 (p : Nat → UInt8) (i : Nat) : Nat := (p i).toNat * 256 + (p (i + 1)).toNat

/-- The segment size so far, and the positions of the header that were read. -/
structure Scan where
  mss : Nat
  reads : List Nat
  deriving DecidableEq, Repr

/-- The bytes from `i` on are read. -/
def Scan.read (s : Scan) (i n : Nat) : Scan :=
  { s with reads := s.reads ++ List.range' i n }

/-- An option of kind 2 and length 4. A smaller segment size counts. -/
def Scan.takeMss (s : Scan) (th : Nat → UInt8) (i : Nat) : Scan :=
  let s := s.read (i + 2) 2
  if get16 th (i + 2) < s.mss then { (s.read (i + 2) 2) with mss := get16 th (i + 2) } else s

/-- The loop over the options. It gives up when the fuel is used up. -/
def scanOptions (th : Nat → UInt8) (thlen : Nat) : Nat → Nat → Scan → Option Scan
  | 0, _, _ => none
  | fuel + 1, i, s =>
      if i + 1 < thlen then
        let kind := th i
        let s := s.read i 1
        if kind = 0 then some s
        else if kind = 1 then scanOptions th thlen fuel (i + 1) s
        else
          let olen := (th (i + 1)).toNat
          let s := s.read (i + 1) 1
          if olen < 2 then some s
          else
            let s := if kind = 2 ∧ olen = 4 then s.takeMss th i else s
            scanOptions th thlen fuel (i + olen) s
      else some s

/-- The scan of a passive open. -/
def synScan (th : Nat → UInt8) (thlen : Nat) : Option Scan :=
  scanOptions th thlen (thlen + 1) 20 ⟨536, []⟩

/-- The segment size of the new connection. -/
def Scan.segmentSize (s : Scan) : Nat := min s.mss MYMSS

/-- `OptionAt th thlen i j`: a scan that stands at `i` comes to look for an option at `j`. -/
inductive OptionAt (th : Nat → UInt8) (thlen : Nat) : Nat → Nat → Prop where
  | here (i : Nat) : OptionAt th thlen i i
  | noop {i j : Nat} : i + 1 < thlen → th i = 1 → OptionAt th thlen (i + 1) j →
      OptionAt th thlen i j
  | skip {i j : Nat} : i + 1 < thlen → th i ≠ 0 → th i ≠ 1 → 2 ≤ (th (i + 1)).toNat →
      OptionAt th thlen (i + (th (i + 1)).toNat) j → OptionAt th thlen i j

/-- Every option of kind 2 and length 4 lies inside the header and holds a size of at least 1. -/
def SoundMss (th : Nat → UInt8) (thlen i : Nat) : Prop :=
  ∀ j, OptionAt th thlen i j → j + 1 < thlen → th j = 2 → (th (j + 1)).toNat = 4 →
    j + 3 < thlen ∧ 1 ≤ get16 th (j + 2)

/-- The scan stayed inside the header, and the segment size is at least 1. -/
def Scan.Safe (thlen : Nat) (s : Scan) : Prop := (∀ i ∈ s.reads, i < thlen) ∧ 1 ≤ s.mss

variable {th : Nat → UInt8} {thlen fuel i : Nat} {s s' : Scan}

/-! ## The scan -/

/-- Each turn goes on by at least one byte. -/
theorem scanOptions_ends (hfuel : thlen ≤ i + fuel) (s : Scan) :
    ∃ s', scanOptions th thlen (fuel + 1) i s = some s' := by
  induction fuel generalizing i s with
  | zero =>
      unfold scanOptions
      rw [if_neg (by omega)]
      exact ⟨_, rfl⟩
  | succ fuel ih =>
      unfold scanOptions
      split
      · dsimp only
        split
        · exact ⟨_, rfl⟩
        split
        · exact ih (by omega) _
        split
        · exact ⟨_, rfl⟩
        · exact ih (by omega) _
      · exact ⟨_, rfl⟩

theorem safe_read {n : Nat} (hn : 0 < n) :
    (s.read i n).Safe thlen ↔ s.Safe thlen ∧ i + n ≤ thlen := by
  unfold Scan.Safe Scan.read
  constructor
  · rintro ⟨hreads, hmss⟩
    refine ⟨⟨fun j hj => hreads j (List.mem_append_left _ hj), hmss⟩, ?_⟩
    have hlast := hreads (i + (n - 1))
      (List.mem_append_right _ (List.mem_range'_1.mpr ⟨by omega, by omega⟩))
    omega
  · rintro ⟨⟨hreads, hmss⟩, hle⟩
    refine ⟨fun j hj => ?_, hmss⟩
    rcases List.mem_append.mp hj with hj | hj
    · exact hreads j hj
    · have := List.mem_range'_1.mp hj
      omega

/-- Taking a segment size is safe when it lies in the header and is not 0. -/
theorem safe_takeMss :
    (s.takeMss th i).Safe thlen ↔ s.Safe thlen ∧ i + 3 < thlen ∧ 1 ≤ get16 th (i + 2) := by
  have hread : (s.read (i + 2) 2).Safe thlen ↔ s.Safe thlen ∧ i + 2 + 2 ≤ thlen :=
    safe_read (by decide)
  have hread' : ((s.read (i + 2) 2).read (i + 2) 2).Safe thlen ↔
      (s.read (i + 2) 2).Safe thlen ∧ i + 2 + 2 ≤ thlen := safe_read (by decide)
  unfold Scan.takeMss
  dsimp only
  split
  next hlt =>
    rw [hread] at hread'
    constructor
    · rintro ⟨hreads, hmss⟩
      have hpos : 1 ≤ ((s.read (i + 2) 2).read (i + 2) 2).mss := le_of_lt (lt_of_le_of_lt hmss hlt)
      obtain ⟨⟨hsafe, hle⟩, -⟩ := hread'.mp ⟨hreads, hpos⟩
      exact ⟨hsafe, by omega, hmss⟩
    · rintro ⟨hsafe, hle, hmss⟩
      exact ⟨(hread'.mpr ⟨⟨hsafe, by omega⟩, by omega⟩).1, hmss⟩
  next hge =>
    rw [not_lt] at hge
    rw [hread]
    constructor
    · rintro ⟨hsafe, hle⟩
      exact ⟨hsafe, by omega, hsafe.2.trans hge⟩
    · rintro ⟨hsafe, hle, -⟩
      exact ⟨hsafe, by omega⟩

/-- The options from `i` on: the one at `i`, and those behind it. -/
theorem soundMss_noop (hlt : i + 1 < thlen) (hkind : th i = 1) :
    SoundMss th thlen i ↔ SoundMss th thlen (i + 1) := by
  constructor
  · exact fun h j hj => h j (.noop hlt hkind hj)
  · intro h j hj
    cases hj with
    | here =>
        intro _ htwo
        rw [hkind] at htwo
        cases htwo
    | noop _ _ hj => exact h j hj
    | skip _ _ hne => exact absurd hkind hne

theorem soundMss_skip (hlt : i + 1 < thlen) (hend : th i ≠ 0) (hnoop : th i ≠ 1)
    (holen : 2 ≤ (th (i + 1)).toNat) :
    SoundMss th thlen i ↔
      (th i = 2 → (th (i + 1)).toNat = 4 → i + 3 < thlen ∧ 1 ≤ get16 th (i + 2)) ∧
      SoundMss th thlen (i + (th (i + 1)).toNat) := by
  constructor
  · exact fun h => ⟨h i (.here i) hlt, fun j hj => h j (.skip hlt hend hnoop holen hj)⟩
  · rintro ⟨hhere, h⟩ j hj
    cases hj with
    | here => exact fun _ => hhere
    | noop _ hkind => exact absurd hkind hnoop
    | skip _ _ _ _ hj => exact h j hj

/-- Where the scan ends there is no segment size. -/
theorem soundMss_end
    (hend : ¬(i + 1 < thlen) ∨ th i = 0 ∨ (th i ≠ 1 ∧ (th (i + 1)).toNat < 2)) :
    SoundMss th thlen i := by
  intro j hj hlt htwo hfour
  cases hj with
  | here =>
      rcases hend with hend | hend | ⟨-, hend⟩
      · exact absurd hlt hend
      · rw [htwo] at hend
        cases hend
      · omega
  | noop hlt' hkind =>
      rcases hend with hend | hend | ⟨hend, -⟩
      · exact absurd hlt' hend
      · rw [hkind] at hend
        cases hend
      · exact absurd hkind hend
  | skip hlt' hne _ holen =>
      rcases hend with hend | hend | ⟨-, hend⟩
      · exact absurd hlt' hend
      · exact absurd hend hne
      · omega

/-- The scan is safe exactly when the options are. -/
theorem scanOptions_safe (hscan : scanOptions th thlen fuel i s = some s') :
    s'.Safe thlen ↔ s.Safe thlen ∧ SoundMss th thlen i := by
  induction fuel generalizing i s with
  | zero => cases hscan
  | succ fuel ih =>
      unfold scanOptions at hscan
      split at hscan
      next hlt =>
        have hkind : (s.read i 1).Safe thlen ↔ s.Safe thlen := by
          rw [safe_read Nat.one_pos, and_iff_left (by omega)]
        have holen : ((s.read i 1).read (i + 1) 1).Safe thlen ↔ s.Safe thlen := by
          rw [safe_read Nat.one_pos, and_iff_left (by omega), hkind]
        dsimp only at hscan
        split at hscan
        next hend =>
          cases hscan
          rw [hkind, and_iff_left (soundMss_end (Or.inr (Or.inl hend)))]
        split at hscan
        next hnoop => rw [ih hscan, hkind, soundMss_noop hlt hnoop]
        next hnoop =>
          split at hscan
          next hshort =>
            cases hscan
            rw [holen, and_iff_left (soundMss_end (Or.inr (Or.inr ⟨hnoop, hshort⟩)))]
          next hend hlong =>
            rw [not_lt] at hlong
            rw [ih hscan, soundMss_skip hlt hend hnoop hlong, ← and_assoc]
            refine and_congr_left fun _ => ?_
            split
            next hmss =>
              rw [safe_takeMss, holen]
              exact and_congr_right fun _ => ⟨fun h _ _ => h, fun h => h hmss.1 hmss.2⟩
            next hmss =>
              rw [holen]
              exact (and_iff_left fun htwo hfour => absurd ⟨htwo, hfour⟩ hmss).symm
      next hend =>
        cases hscan
        exact (and_iff_left (soundMss_end (Or.inl hend))).symm

/-! ## What comes of it -/

/-- A turn of the loop of `tcp_output` moves `snd_nxt`. -/
theorem sendData_advances {c : Conn} (hmss : 1 ≤ c.tcb.mss) (hbound : c.tcb.mss ≤ MYMSS)
    (hunsent : 0 < c.tcb.unsent) (hwin : 0 < c.tcb.win) :
    c.sendData.tcb.sndNxt ≠ c.tcb.sndNxt := by
  obtain ⟨hpos, hle⟩ := nextLen_pos hmss hunsent hwin
  have hmax : MYMSS = 512 := rfl
  have hnxt : c.sendData.tcb.sndNxt = serialAdd c.tcb.sndNxt c.tcb.nextLen.toNat := by
    unfold Conn.sendData Conn.startTimer
    dsimp only
    split <;> rfl
  rw [hnxt]
  intro heq
  have := serialAdd_inj (by omega) (by omega) (heq.trans (serialAdd_zero c.tcb.sndNxt).symm)
  omega

/-- The scan of a `SYN` ends. It reads only the header and leaves a segment size of at least 1, with
which every data segment of the connection carries data and every turn of `tcp_output` moves
`snd_nxt`, exactly when every segment size it comes to lies in the header and is not 0. -/
theorem syn_options_safe_iff (th : Nat → UInt8) (thlen : Nat) :
    ∃ s, synScan th thlen = some s ∧
      (((∀ i ∈ s.reads, i < thlen) ∧ 1 ≤ s.segmentSize ∧
        (∀ (world : World) (iss seq : Seq) (window : Nat) (labels : List Label),
          let c := labels.foldl Conn.step (passiveOpen world iss seq window s.segmentSize)
          (c.tcb.state ≠ .closed → c.tcb.mss = s.segmentSize) ∧
            ∀ segment ∈ c.sent, segment.flags.psh = true → segment.data ≠ []) ∧
        ∀ c : Conn, c.tcb.mss = s.segmentSize → 0 < c.tcb.unsent → 0 < c.tcb.win →
          c.sendData.tcb.sndNxt ≠ c.tcb.sndNxt) ↔ SoundMss th thlen 20) := by
  have hends : ∃ s, synScan th thlen = some s := scanOptions_ends (by omega) _
  obtain ⟨s, hscan⟩ := hends
  have hsafe := scanOptions_safe hscan
  rw [and_iff_right (show (Scan.mk 536 []).Safe thlen from ⟨nofun, by decide⟩)] at hsafe
  have hsize : 1 ≤ s.segmentSize ↔ 1 ≤ s.mss := by
    have hmax : MYMSS = 512 := rfl
    unfold Scan.segmentSize
    omega
  refine ⟨s, hscan, fun h => hsafe.mp ⟨h.1, hsize.mp h.2.1⟩, fun h => ?_⟩
  obtain ⟨hreads, hmss⟩ := hsafe.mpr h
  have hpos := hsize.mpr hmss
  refine ⟨hreads, hpos, fun world iss seq window labels => ?_, fun c hc hunsent hwin => ?_⟩
  · have hsized := sized_run hpos world iss seq window labels
    exact ⟨hsized.mss, hsized.full⟩
  · refine sendData_advances (hpos.trans_eq hc.symm) ?_ hunsent hwin
    rw [hc]
    exact Nat.min_le_right _ _

/-- A header whose options stand at 20 and go on as given. -/
def headerOf (options : List UInt8) (i : Nat) : UInt8 := options.getD (i - 20) 0

/-- The handshake, then the service writes a byte and `ip_room` has room for two segments. -/
def writesOne : List Label :=
  [⟨.input ⟨8, 1, .ackOnly, 512, []⟩ ⟨[], fun _ => ([], 0), none, fun _ => Int.natCast_nonneg _⟩,
      ⟨[], [], []⟩⟩,
    ⟨.call (.write [65]), ⟨[], [], []⟩⟩, ⟨.output, ⟨[], [1000, 500, 100], []⟩⟩]

/-- A segment size of 0 is taken, and two segments without data go out while `snd_nxt` stands still; an
option at the end of the header is read beyond it. -/
theorem syn_options_unsafe :
    (∃ s, synScan (headerOf [2, 4, 0, 0]) 24 = some s ∧ s.segmentSize = 0 ∧
      ∃ c, c = writesOne.foldl Conn.step (passiveOpen ⟨[], [], []⟩ 0 7 512 s.segmentSize) ∧
        c.tcb.sndNxt = 1 ∧ c.tcb.txlen = 1 ∧
        (c.sent.take 2).map (fun segment => (segment.flags.psh, segment.data)) =
          [(true, []), (true, [])]) ∧
    ∃ s, synScan (headerOf [1, 1, 2, 4]) 24 = some s ∧ 24 ∈ s.reads := by
  refine ⟨⟨⟨0, [20, 21, 22, 23, 22, 23]⟩, by decide, by decide, _, rfl, ?_⟩,
    ⟨_, rfl, by decide⟩⟩
  decide +kernel

end DiscoBsd.Tcp
