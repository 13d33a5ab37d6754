import DiscoBsd.Lib.Steps
import DiscoBsd.Pathname.Buffer

/-!
# Symbolic links in the path of a lookup

As long as no expansion overwrites a byte of the rest of the path before it is read, the path keeps
its null, the buffer holds the text of each link with the rest of the path behind it, and there are at
most `MAXSYMLINKS` expansions: `expansion_run`. `bcopy` does not do that when it moves the rest up by
less than its length, and then the path may lose its null: `expansion_overlaps`.
-/

namespace DiscoBsd.Pathname

open Lib
open Dir (Name Nameiop MAXNAMLEN)

variable {path : Bytes} {cp last left room : Nat} {op : Nameiop} {name : Name}

/-! ## Reading the path -/

/-- The slashes end at the null at the latest. -/
theorem skipSlashes_spec (left : Nat) (hnul : path last = 0) (hle : cp ≤ last) (hleft : last < cp + left) :
    ∃ cp', skipSlashes path left cp = some cp' ∧ cp ≤ cp' ∧ cp' ≤ last := by
  induction left generalizing cp with
  | zero => omega
  | succ left ih =>
      rw [skipSlashes]
      split
      · next hslash =>
        have hne : cp ≠ last := by
          rintro rfl
          rw [hnul] at hslash
          exact absurd hslash (by decide)
        obtain ⟨cp', hskip, hlow, hhigh⟩ := @ih (cp + 1) (by omega) (by omega)
        exact ⟨cp', hskip, by omega, hhigh⟩
      · exact ⟨cp, rfl, le_rfl, hle⟩

/-- The length of the rest of the path is the distance to its first null. -/
theorem strlen_spec (left : Nat) (hnul : path last = 0) (hle : cp ≤ last) (hleft : last < cp + left) :
    ∃ len, strlen path left cp = some len ∧ cp + len ≤ last ∧ path (cp + len) = 0 ∧
      ∀ i < len, path (cp + i) ≠ 0 := by
  induction left generalizing cp with
  | zero => omega
  | succ left ih =>
      rw [strlen]
      split
      · next hzero => exact ⟨0, rfl, hle, hzero, by simp⟩
      · next hne =>
        have hcp : cp ≠ last := by
          rintro rfl
          exact hne hnul
        obtain ⟨len, hlen, hlast, hzero, hbefore⟩ := @ih (cp + 1) (by omega) (by omega)
        refine ⟨len + 1, by rw [hlen]; rfl, by omega, ?_, fun i hi => ?_⟩
        · rw [← hzero]
          congr 1
          omega
        · cases i with
          | zero => exact hne
          | succ i =>
              have hi' := hbefore i (by omega)
              rwa [Nat.add_assoc, Nat.add_comm 1 i] at hi'

/-- A component is read in the buffer, and what follows it is the null or a slash. -/
theorem component_spec (op : Nameiop) (room : Nat) (hnul : path last = 0) (hle : cp ≤ last)
    (hlast : last < MAXPATHLEN) :
    component path op room cp ≠ .astray ∧
      ∀ name cp', component path op room cp = .name name cp' →
        cp' = cp + name.length ∧ cp' ≤ last ∧ endsAt path cp' := by
  induction room generalizing cp with
  | zero =>
      rw [component, if_neg (by omega)]
      split
      · next hends =>
        refine ⟨nofun, fun name cp' heq => ?_⟩
        cases heq
        exact ⟨rfl, hle, hends⟩
      · exact ⟨nofun, nofun⟩
  | succ room ih =>
      rw [component, if_neg (by omega)]
      split
      · next hends =>
        refine ⟨nofun, fun name cp' heq => ?_⟩
        cases heq
        exact ⟨rfl, hle, hends⟩
      · next hends =>
        split
        · exact ⟨nofun, nofun⟩
        · have hne : cp ≠ last := by
            rintro rfl
            exact hends (.inl hnul)
          obtain ⟨hastray, hname⟩ := @ih (cp + 1) (by omega)
          generalize component path op room (cp + 1) = rest at hastray hname
          cases rest with
          | name name cp' =>
              refine ⟨nofun, fun name' cp'' heq => ?_⟩
              cases heq
              obtain ⟨hcp, hbound, hend⟩ := hname name cp' rfl
              refine ⟨?_, hbound, hend⟩
              rw [List.length_cons]
              omega
          | error e => exact ⟨nofun, nofun⟩
          | astray => exact absurd rfl hastray

/-! ## Chunks -/

/-- Every `bcopy` copies all the bytes. -/
theorem chunks_sum (port : Port) (src dst nbytes : Nat) : (port.chunks src dst nbytes).sum = nbytes := by
  have hword : (wordChunks src dst nbytes).sum = nbytes := by
    unfold wordChunks
    split
    · simp only [List.sum_append, List.sum_replicate_nat]
      omega
    · simp
  cases port with
  | gba =>
      show (gbaChunks src dst nbytes).sum = nbytes
      unfold gbaChunks
      split
      · simp
      · simp only [List.sum_append, List.sum_replicate_nat]
        omega
  | stm32 => exact hword
  | pic32 => exact hword

/-! ## One expansion -/

variable {Ino : Type} {port : Port} {addr : Nat} {tree : Tree Ino} {req : Request Ino}
  {s s' : State Ino} {text : List UInt8} {pathlen : Nat}

/-- The buffer holds the text and behind it what was the rest of the path. -/
def Expanded (path path' : Bytes) (cp : Nat) (text : List UInt8) (pathlen : Nat) : Prop :=
  bytesAt path' 0 (text.length + pathlen) = text ++ bytesAt path cp pathlen

/-- The text goes where it should; what is left is whether the rest does. -/
theorem expanded_iff (path path' : Bytes) (cp : Nat) (text : List UInt8) (pathlen : Nat) :
    Expanded path (putBytes path' 0 text) cp text pathlen ↔
      ∀ i < pathlen, path' (text.length + i) = path (cp + i) := by
  have hrest : ∀ i, putBytes path' 0 text (text.length + i) = path' (text.length + i) :=
    fun i => putBytes_after _ (by omega)
  have hbytes : bytesAt (putBytes path' 0 text) 0 (text.length + pathlen) =
      text ++ (List.range pathlen).map fun i => path' (text.length + i) := by
    have htext := bytesAt_putBytes path' 0 text
    simp only [bytesAt, Nat.zero_add] at htext ⊢
    rw [List.range_add, List.map_append, htext, List.map_map]
    congr 1
    exact List.map_congr_left fun i _ => hrest i
  unfold Expanded
  rw [hbytes, List.append_cancel_left_eq, bytesAt, List.map_inj_left]
  simp

namespace State

theorem substitute_outside {a : Nat} (h : text.length + pathlen ≤ a) :
    s.substitute port addr text pathlen a = s.path a := by
  unfold substitute
  rw [putBytes_after _ (by omega), copyChunks_outside]
  rw [chunks_sum]
  omega

theorem substitute_expanded :
    Expanded s.path (s.substitute port addr text pathlen) s.cp text pathlen ↔
      Unclobbered s.path s.cp text.length (port.chunks (addr + s.cp) (addr + text.length) pathlen) := by
  unfold substitute
  rw [expanded_iff, ← copyChunks_exact, chunks_sum]

theorem substitute_nul (h : Expanded s.path (s.substitute port addr text (pathlen + 1)) s.cp text
      (pathlen + 1)) (hnul : s.path (s.cp + pathlen) = 0) :
    s.substitute port addr text (pathlen + 1) (text.length + pathlen) = 0 := by
  unfold substitute at h ⊢
  rw [expanded_iff] at h
  rw [putBytes_after _ (by omega), h pathlen (by omega), hnul]

end State

/-! ## The invariant -/

/-- The rest of the path ends in the buffer, and behind a component it is empty or starts with a
slash. -/
structure Sound (s : State Ino) : Prop where
  nul : ∃ last, s.cp ≤ last ∧ last < MAXPATHLEN ∧ s.path last = 0
  nlink : s.nlink ≤ MAXSYMLINKS
  ends : ∀ ip, s.control = .haveino ip → endsAt s.path s.cp

/-- The rest of the path with its null. -/
theorem Sound.rest (h : Sound s) :
    ∃ len, s.pathlen = some (len + 1) ∧ s.cp + len < MAXPATHLEN ∧ s.path (s.cp + len) = 0 ∧
      ∀ i < len, s.path (s.cp + i) ≠ 0 := by
  obtain ⟨last, hle, hlast, hnul⟩ := h.nul
  obtain ⟨len, hlen, hbound, hzero, hbefore⟩ :=
    strlen_spec (MAXPATHLEN - s.cp) hnul hle (by omega)
  refine ⟨len, ?_, by omega, hzero, hbefore⟩
  unfold State.pathlen
  rw [hlen]
  rfl

/-- A path with a null in the buffer can be started. -/
theorem startIn_sound (tree : Tree Ino) (req : Request Ino) {nlink : Nat} (dp : Ino) (hnul : path last = 0) (hlast : last < MAXPATHLEN)
    (hnlink : nlink ≤ MAXSYMLINKS) :
    ∃ s, startIn tree req path nlink dp = .go s ∧ Sound s ∧ s.nlink = nlink := by
  unfold startIn
  split
  · obtain ⟨cp, hskip, -, hle⟩ := skipSlashes_spec MAXPATHLEN hnul (Nat.zero_le last)
      (by omega)
    rw [hskip]
    exact ⟨_, rfl, ⟨⟨last, hle, hlast, hnul⟩, hnlink, nofun⟩, rfl⟩
  · exact ⟨_, rfl, ⟨⟨last, Nat.zero_le last, hlast, hnul⟩, hnlink, nofun⟩, rfl⟩

/-- What a step comes to when all is well: a sound state with the links counted, or an end. -/
inductive Good (links : Nat) : Next Ino → Prop where
  | go {s : State Ino} : Sound s → s.nlink = links → Good links (.go s)
  | done (outcome : Outcome Ino) : Good links (.done outcome)

theorem Sound.enter [DecidableEq Ino] (h : Sound s) {name : Name} {cp' : Nat} (hcp : cp' = s.cp + name.length)
    (hle : cp' ≤ last) (hlast : last < MAXPATHLEN) (hnul : s.path last = 0)
    (hends : endsAt s.path cp') : Good s.nlink (s.enter tree req name cp') := by
  unfold State.enter
  split
  · split <;> exact .done _
  · split
    · split <;> exact .done _
    · split
      · exact .done _
      · simp only
        split
        · next up heq =>
          -- back to where the component started
          refine .go ⟨⟨last, ?_, hlast, hnul⟩, h.nlink, nofun⟩ rfl
          show cp' - 2 ≤ last
          omega
        · split
          · split <;> split <;> exact .done _
          · exact .go ⟨⟨last, hle, hlast, hnul⟩, h.nlink, fun _ _ => hends⟩ rfl

theorem Sound.proceed (h : Sound s) (ip : Ino) : Good s.nlink (s.proceed ip) := by
  obtain ⟨last, hle, hlast, hnul⟩ := h.nul
  unfold State.proceed
  split
  · obtain ⟨cp, hskip, -, hcp⟩ :=
      skipSlashes_spec (MAXPATHLEN - s.cp) hnul hle (by omega)
    rw [hskip]
    exact .go ⟨⟨last, hcp, hlast, hnul⟩, h.nlink, nofun⟩ rfl
  · exact .done _

theorem link_haveino (hlink : s.link tree req = some text) : ∃ ip, s.control = .haveino ip := by
  unfold State.link at hlink
  split at hlink
  · next ip hcontrol => exact ⟨ip, hcontrol⟩
  · cases hlink

/-- The texts of links are files. -/
def Tree.Small (tree : Tree Ino) : Prop :=
  ∀ ip text, tree.format ip = .lnk text → text.length < 2 ^ 31

theorem Tree.Small.link (h : tree.Small) (hlink : s.link tree req = some text) :
    text.length < 2 ^ 31 := by
  unfold State.link at hlink
  split at hlink
  · split at hlink
    · next text' hformat =>
      rw [Option.ite_none_right_eq_some] at hlink
      obtain ⟨-, heq⟩ := hlink
      cases heq
      exact h _ _ hformat
    · cases hlink
  · cases hlink

/-- An expansion, in the terms of the step. -/
theorem expansion_iff : s.expansion tree req = some (text, pathlen) ↔
    s.link tree req = some text ∧ s.pathlen = some pathlen ∧ State.fits text pathlen ∧
      s.nlink + 1 ≤ MAXSYMLINKS := by
  unfold State.expansion
  cases s.link tree req with
  | none => simp
  | some text' =>
      cases s.pathlen with
      | none => simp
      | some pathlen' =>
          simp only [Option.bind_eq_bind, Option.bind_some, Option.ite_none_right_eq_some,
            Option.some.injEq, Prod.mk.injEq]
          constructor
          · rintro ⟨hfits, rfl, rfl⟩
            exact ⟨rfl, rfl, hfits⟩
          · rintro ⟨rfl, rfl, hfits⟩
            exact ⟨hfits, rfl, rfl⟩

theorem fits_le (hsmall : text.length < 2 ^ 31) (hrest : pathlen ≤ MAXPATHLEN)
    (hfits : State.fits text pathlen) : text.length + pathlen ≤ MAXPATHLEN := by
  unfold State.fits at hfits
  simp only [MAXPATHLEN] at hrest hfits ⊢
  omega

/-- An expansion counts one link, or fails. -/
theorem Sound.expand (h : Sound s) (hsmall : tree.Small) (hlink : s.link tree req = some text)
    (hclear : s.Clear port addr tree req) :
    Good (s.links tree req)
      (s.expand port addr tree req text) := by
  obtain ⟨len, hlen, hbound, hzero, -⟩ := h.rest
  unfold State.expand
  rw [hlen]
  simp only
  split
  · exact .done _
  · next hfits =>
    rw [not_not] at hfits
    split
    · exact .done _
    · next hmore =>
      have hexpansion : s.expansion tree req = some (text, len + 1) :=
        expansion_iff.mpr ⟨hlink, hlen, hfits, by omega⟩
      have hroom := fits_le (hsmall.link hlink) (by omega) hfits
      have hmore' : s.nlink + 1 ≤ MAXSYMLINKS := by omega
      have hnul := State.substitute_nul
        (State.substitute_expanded.mpr (hclear text (len + 1) hexpansion)) hzero
      obtain ⟨s', hstart, hsound, hnlink⟩ := startIn_sound tree req s.dp hnul
        (by omega) hmore'
      have hlinks : s.links tree req = s.nlink + 1 := by
        rw [State.links, hexpansion]
        rfl
      rw [hstart, hlinks]
      exact .go hsound hnlink

/-- A step whose expansion is clear stays in the buffer and keeps the path sound. -/
theorem Sound.step [DecidableEq Ino] (h : Sound s) (hsmall : tree.Small) (hclear : s.Clear port addr tree req) :
    Good (s.links tree req)
      (s.step port addr tree req) := by
  have hnone (hlink : s.link tree req = none) : s.links tree req = s.nlink := by
    have hexpansion : s.expansion tree req = none := by
      rw [State.expansion, hlink]
      rfl
    rw [State.links, hexpansion]
    rfl
  unfold State.step
  split
  · next hcontrol =>
    rw [hnone (by rw [State.link, hcontrol])]
    split
    · exact .done _
    · split
      · exact .done _
      · exact .go ⟨h.nul, h.nlink, nofun⟩ rfl
  · next hcontrol =>
    rw [hnone (by rw [State.link, hcontrol])]
    obtain ⟨last, hle, hlast, hnul⟩ := h.nul
    obtain ⟨hastray, hname⟩ := component_spec req.op MAXNAMLEN hnul hle hlast
    split
    · next name cp' heq =>
      obtain ⟨hcp, hbound, hends⟩ := hname name cp' heq
      exact h.enter hcp hbound hlast hnul hends
    · exact .done _
    · next heq => exact absurd heq hastray
  · next ip hcontrol =>
    split
    · next text hlink => exact h.expand hsmall hlink hclear
    · next hlink =>
      rw [hnone hlink]
      exact h.proceed ip

/-! ## Runs -/

/-- A step that overwrites no byte of the rest before it is read. -/
def ClearStep [DecidableEq Ino] (port : Port) (addr : Nat) (tree : Tree Ino) (req : Request Ino)
    (s : State Ino) (expands : Bool) (s' : State Ino) : Prop :=
  s.Clear port addr tree req ∧ s.Step port addr tree req expands s'

theorem Sound.clearStep [DecidableEq Ino] {expands : Bool} (h : Sound s) (hsmall : tree.Small)
    (hstep : ClearStep port addr tree req s expands s') :
    Sound s' ∧ s'.nlink = s.nlink + if expands then 1 else 0 := by
  obtain ⟨hclear, hgo, rfl⟩ := hstep
  have hgood := h.step hsmall hclear
  rw [hgo] at hgood
  cases hgood with
  | go hsound hnlink =>
      refine ⟨hsound, hnlink.trans ?_⟩
      unfold State.links
      split <;> rfl

theorem Sound.run [DecidableEq Ino] {expansions : List Bool} (h : Sound s) (hsmall : tree.Small)
    (hrun : Steps (ClearStep port addr tree req) s expansions s') :
    Sound s' ∧ s'.nlink = s.nlink + expansions.count true := by
  induction hrun with
  | refl s => exact ⟨h, by simp⟩
  | @cons s expands next expansions final hstep _ ih =>
      obtain ⟨hnext, hnlink⟩ := h.clearStep hsmall hstep
      obtain ⟨hfinal, hcount⟩ := ih hnext
      refine ⟨hfinal, ?_⟩
      rw [hcount, hnlink, List.count_cons]
      cases expands with
      | false => simp
      | true =>
          simp only [if_true, beq_self_eq_true]
          omega

/-- The path that the caller passed, in the buffer. -/
theorem start_sound {cdir : Ino} {stack : Bytes} {dirp : List UInt8} (hstart : start tree req cdir stack dirp = .go s) :
    Sound s ∧ s.nlink = 0 := by
  unfold start at hstart
  split at hstart
  · cases hstart
  · next hlen =>
    have hnul : putBytes stack 0 (dirp ++ [0]) dirp.length = 0 := by
      have hlast := putBytes_inside (m := stack) (p := 0) (dirp ++ [0]) (i := dirp.length) (by simp)
      rw [Nat.zero_add] at hlast
      rw [hlast]
      simp
    have hbudget : 0 ≤ MAXSYMLINKS := Nat.zero_le _
    obtain ⟨s', hgo, hsound, hnlink⟩ := startIn_sound tree req cdir hnul (by omega) hbudget
    rw [hgo] at hstart
    cases hstart
    exact ⟨hsound, hnlink⟩

/-- For every path, every tree and every lookup in which no expansion overwrites a byte of the rest
before it is read: the path keeps its null in the buffer, and no step leaves the buffer; there are at
most `MAXSYMLINKS` expansions, and the next link that fits ends the lookup with `ELOOP`; and where a
link is expanded, text and rest fit in the buffer, the rest is empty or starts with a slash, no other
memory is written, and the buffer then holds the text with the rest behind it exactly if no byte of
the rest is overwritten before it is read. -/
theorem expansion_run [DecidableEq Ino] {cdir : Ino} {stack : Bytes} {dirp : List UInt8}
    {start' s : State Ino} {expansions : List Bool} (hsmall : tree.Small)
    (hstart : start tree req cdir stack dirp = .go start')
    (hrun : Steps (ClearStep port addr tree req) start' expansions s) :
    (∃ last, s.cp ≤ last ∧ last < MAXPATHLEN ∧ s.path last = 0) ∧
    (s.Clear port addr tree req → s.step port addr tree req ≠ .astray) ∧
    expansions.count true ≤ MAXSYMLINKS ∧
    (∀ text pathlen, s.link tree req = some text → s.pathlen = some pathlen → State.fits text pathlen →
      expansions.count true = MAXSYMLINKS → s.step port addr tree req = .done (.error .ELOOP)) ∧
    (∀ text pathlen, s.expansion tree req = some (text, pathlen) →
      text.length + pathlen ≤ MAXPATHLEN ∧ endsAt s.path s.cp ∧
      (∀ a, text.length + pathlen ≤ a → s.substitute port addr text pathlen a = s.path a) ∧
      (Expanded s.path (s.substitute port addr text pathlen) s.cp text pathlen ↔
        s.Clear port addr tree req)) := by
  obtain ⟨hinit, hzero⟩ := start_sound hstart
  obtain ⟨hsound, hcount⟩ := hinit.run hsmall hrun
  rw [hzero, Nat.zero_add] at hcount
  refine ⟨hsound.nul, fun hclear hastray => ?_, hcount ▸ hsound.nlink, ?_, ?_⟩
  · have hgood := hsound.step hsmall hclear
    rw [hastray] at hgood
    cases hgood
  · intro text pathlen hlink hpathlen hfits hmax
    obtain ⟨ip, hcontrol⟩ := link_haveino hlink
    unfold State.step
    rw [hcontrol]
    simp only [hlink]
    unfold State.expand
    rw [hpathlen]
    simp only [if_neg (not_not.mpr hfits)]
    rw [if_pos (by omega)]
  · intro text pathlen hexpansion
    obtain ⟨hlink, hpathlen, hfits, -⟩ := expansion_iff.mp hexpansion
    obtain ⟨ip, hcontrol⟩ := link_haveino hlink
    obtain ⟨len, hlen, hbound, -, -⟩ := hsound.rest
    rw [hpathlen] at hlen
    cases hlen
    refine ⟨fits_le (hsmall.link hlink) (by omega) hfits, hsound.ends ip hcontrol,
      fun a ha => State.substitute_outside ha, ?_⟩
    rw [State.substitute_expanded]
    refine ⟨fun hclear text' pathlen' heq => ?_, fun hclear => hclear text (len + 1) hexpansion⟩
    rw [hexpansion] at heq
    cases heq
    exact hclear

/-! ## A link in a directory -/

/-- Directory 0 with a link `l` to `text`, and a directory 2 under every other name. -/
def oneLink (text : List UInt8) : Tree Nat where
  rootdir := 0
  format ip := if ip = 1 then .lnk text else .dir
  lookup _ name := if name = [108] then some 1 else some 2
  access _ := none
  mountedOn _ := none

/-- A lookup of a file, links followed. -/
def plainLookup : Request Nat := ⟨.lookup, false, true, none⟩

/-- The state at the link, with the path `l` and `rest` in a buffer full of `z`. -/
def atLink (rest : List UInt8) : State Nat :=
  ⟨putBytes (fun _ => 122) 0 (108 :: rest ++ [0]), 1, 0, 0, .haveino 1⟩

/-- The path `l/abcdefgh` with a link `l` to `xy`: the rest is moved up by one byte, over itself. The
path that comes of it is `xy` and slashes, and has no null in the buffer. -/
theorem expansion_overlaps :
    let tree := oneLink [120, 121]
    let rest : List UInt8 := [47, 97, 98, 99, 100, 101, 102, 103, 104]
    let s := atLink rest
    (∃ start', start tree plainLookup 0 (fun _ => 122) (108 :: rest) = .go start' ∧
      Steps (State.Step .gba 0 tree plainLookup) start' [false, false] s) ∧
    s.expansion tree plainLookup = some ([120, 121], 10) ∧
    ¬ Expanded s.path (s.substitute .gba 0 [120, 121] 10) s.cp [120, 121] 10 ∧
    ∃ s', s.step .gba 0 tree plainLookup = .go s' ∧ ∀ last, last < MAXPATHLEN → s'.path last ≠ 0 := by
  intro tree rest s
  refine ⟨⟨_, rfl, .cons ⟨rfl, rfl⟩ (.cons ⟨rfl, rfl⟩ (.refl _))⟩, rfl, ?_, _, rfl, ?_⟩
  · unfold Expanded
    decide +kernel
  · decide +kernel

/-- The path `l/e` with a link `l` to a text that is longer than the rest. -/
theorem expansion_run_apart :
    let s := atLink [47, 101]
    Expanded s.path (s.substitute .gba 0 [97, 98, 99, 100, 101, 102] 3) s.cp
      [97, 98, 99, 100, 101, 102] 3 := by
  intro s
  let tree := oneLink [97, 98, 99, 100, 101, 102]
  have hsmall : tree.Small := by
    intro ip text hformat
    simp only [tree, oneLink] at hformat
    split at hformat
    · cases hformat
      decide
    · cases hformat
  have hno (s' : State Nat) (hnone : s'.expansion tree plainLookup = none) :
      s'.Clear .gba 0 tree plainLookup := by
    intro text pathlen heq
    rw [hnone] at heq
    cases heq
  have hclear : s.Clear .gba 0 tree plainLookup := by
    intro text pathlen heq
    cases heq
    exact .of_apart (.inr (by decide))
  have hrun : ∃ start', start tree plainLookup 0 (fun _ => 122) [108, 47, 101] = .go start' ∧
      Steps (ClearStep .gba 0 tree plainLookup) start' [false, false] s :=
    ⟨_, rfl, .cons ⟨hno _ rfl, rfl, rfl⟩ (.cons ⟨hno _ rfl, rfl, rfl⟩ (.refl _))⟩
  obtain ⟨start', hstart, hsteps⟩ := hrun
  exact ((expansion_run hsmall hstart hsteps).2.2.2.2 _ _ rfl).2.2.2.mpr hclear

end DiscoBsd.Pathname
