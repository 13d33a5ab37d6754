import Mathlib.Data.List.Nodup
import Mathlib.Data.Finset.Card
import Mathlib.Order.Interval.Finset.Nat
import DiscoBsd.Lib.Steps
import DiscoBsd.Alloc.Blocks

/-!
# The free list is a stack

`Chain block tbl blocks` says that the table `tbl` and the tables kept in the free blocks
behind it represent the stack `blocks`, in the order in which `balloc` hands them out.
`balloc_pop` and `free_push` show that the two operations pop and push; `free_list_run`
lifts this to every sequence of calls, with the holders of allocated blocks storing
whatever they like in them in between.
-/

namespace DiscoBsd.Alloc

open Lib

/-- The blocks in slots `nfree` down to 1 of a table. -/
def stacked (dfFree : Nat → Nat) : Nat → List Nat
  | 0 => []
  | nfree + 1 => dfFree (nfree + 1) :: stacked dfFree nfree

/-- The table `tbl` and the tables in the blocks it leads to represent the stack. -/
inductive Chain (block : Nat → Fblk) : Fblk → List Nat → Prop where
  | last (tbl : Fblk) (nfree : Nat) : tbl.dfNfree = (nfree : Int) + 1 → nfree < NICFREE → tbl.dfFree 0 = 0 →
      Chain block tbl (stacked tbl.dfFree nfree)
  | link (tbl : Fblk) (nfree : Nat) {rest : List Nat} : tbl.dfNfree = (nfree : Int) + 1 → nfree < NICFREE →
      tbl.dfFree 0 ≠ 0 → Chain block (block (tbl.dfFree 0)) rest →
      Chain block tbl (stacked tbl.dfFree nfree ++ tbl.dfFree 0 :: rest)

/-- A well-formed free list: the superblock has no table, or one that starts a chain; the
blocks of the stack are distinct blocks of the data area, and `fs_tfree` counts them. -/
structure WellFormed (vol : Vol) (blocks : List Nat) : Prop where
  isize_pos : 0 < vol.fs.fsIsize
  fsize_lt : vol.fs.fsFsize < 2 ^ 32
  chain : vol.fs.fblk.dfNfree = 0 ∧ blocks = [] ∨ Chain vol.block vol.fs.fblk blocks
  nodup : blocks.Nodup
  in_range : ∀ bno ∈ blocks, vol.fs.fsIsize ≤ bno ∧ bno < vol.fs.fsFsize
  tfree : vol.fs.fsTfree = blocks.length

/-! ## Tables -/

theorem stacked_congr {dfFree dfFree' : Nat → Nat} {nfree : Nat}
    (h : ∀ slot, 0 < slot → slot ≤ nfree → dfFree' slot = dfFree slot) :
    stacked dfFree' nfree = stacked dfFree nfree := by
  induction nfree with
  | zero => rfl
  | succ nfree ih =>
      rw [stacked, stacked, h (nfree + 1) (by omega) (le_refl _),
        ih fun slot hpos hle => h slot hpos (by omega)]

/-- A chain depends only on the blocks of its stack. -/
theorem Chain.congr {block block' : Nat → Fblk} {tbl : Fblk} {blocks : List Nat}
    (h : Chain block tbl blocks) (hsame : ∀ bno ∈ blocks, block' bno = block bno) :
    Chain block' tbl blocks := by
  induction h with
  | last tbl nfree hnfree hlt hend => exact .last tbl nfree hnfree hlt hend
  | link tbl nfree hnfree hlt hlink _ ih =>
      refine .link tbl nfree hnfree hlt hlink ?_
      rw [hsame _ (by simp)]
      exact ih fun bno hbno => hsame bno (by simp [hbno])

theorem Chain.nfree_bounds {block : Nat → Fblk} {tbl : Fblk} {blocks : List Nat}
    (h : Chain block tbl blocks) : 0 < tbl.dfNfree ∧ tbl.dfNfree ≤ NICFREE := by
  cases h with
  | last _ nfree hnfree hlt _ => omega
  | link _ nfree hnfree hlt _ _ => omega

/-- A table with a block on top of slot 0 loses it to the next call. -/
theorem Chain.pop {block : Nat → Fblk} {tbl : Fblk} {blocks : List Nat} {nfree : Nat}
    (h : Chain block tbl blocks) (hnfree : tbl.dfNfree = (nfree : Int) + 1 + 1) :
    ∃ rest, blocks = tbl.dfFree (nfree + 1) :: rest ∧
      Chain block { tbl with dfNfree := (nfree : Int) + 1 } rest := by
  cases h with
  | last _ k hk hlt hend =>
      obtain rfl : k = nfree + 1 := by omega
      exact ⟨stacked tbl.dfFree nfree, rfl, .last _ nfree rfl (by omega) hend⟩
  | link _ k hk hlt hlink hrest =>
      rename_i rest
      obtain rfl : k = nfree + 1 := by omega
      exact ⟨stacked tbl.dfFree nfree ++ tbl.dfFree 0 :: rest, rfl,
        .link _ nfree rfl (by omega) hlink hrest⟩

/-- A table with room takes a block on top. -/
theorem Chain.push {block : Nat → Fblk} {tbl : Fblk} {blocks : List Nat} {nfree : Nat}
    (h : Chain block tbl blocks) (hnfree : tbl.dfNfree = (nfree : Int) + 1)
    (hroom : nfree + 1 < NICFREE) (bno : Nat) :
    Chain block ⟨(nfree : Int) + 1 + 1, Function.update tbl.dfFree (nfree + 1) bno⟩
      (bno :: blocks) := by
  have hzero : Function.update tbl.dfFree (nfree + 1) bno 0 = tbl.dfFree 0 := by simp
  have hbelow : stacked (Function.update tbl.dfFree (nfree + 1) bno) nfree =
      stacked tbl.dfFree nfree := by
    refine stacked_congr fun slot _ hle => ?_
    exact Function.update_of_ne (by omega) _ _
  have htop : stacked (Function.update tbl.dfFree (nfree + 1) bno) (nfree + 1) =
      bno :: stacked tbl.dfFree nfree := by
    rw [stacked, hbelow, Function.update_self]
  cases h with
  | last _ k hk hlt hend =>
      obtain rfl : k = nfree := by omega
      have hchain : Chain block ⟨(k : Int) + 1 + 1, Function.update tbl.dfFree (k + 1) bno⟩
          (stacked (Function.update tbl.dfFree (k + 1) bno) (k + 1)) :=
        .last _ (k + 1) (by simp) hroom (hzero.trans hend)
      rwa [htop] at hchain
  | link _ k hk hlt hlink hrest =>
      rename_i rest
      obtain rfl : k = nfree := by omega
      have hchain : Chain block ⟨(k : Int) + 1 + 1, Function.update tbl.dfFree (k + 1) bno⟩
          (stacked (Function.update tbl.dfFree (k + 1) bno) (k + 1) ++
            Function.update tbl.dfFree (k + 1) bno 0 :: rest) := by
        refine .link _ (k + 1) (by simp) hroom ?_ ?_
        · show Function.update tbl.dfFree (k + 1) bno 0 ≠ 0
          rw [hzero]
          exact hlink
        · show Chain block (block (Function.update tbl.dfFree (k + 1) bno 0)) rest
          rw [hzero]
          exact hrest
      rwa [htop, hzero] at hchain

/-- With one slot in use the stack is empty, or its top is the block in slot 0 and the table kept
there represents the rest. -/
theorem Chain.cases_one {block : Nat → Fblk} {tbl : Fblk} {blocks : List Nat}
    (h : Chain block tbl blocks) (hone : tbl.dfNfree = 1) :
    tbl.dfFree 0 = 0 ∧ blocks = [] ∨
      tbl.dfFree 0 ≠ 0 ∧ ∃ rest, blocks = tbl.dfFree 0 :: rest ∧
        Chain block (block (tbl.dfFree 0)) rest := by
  cases h with
  | last _ k hk _ hend =>
      obtain rfl : k = 0 := by omega
      exact Or.inl ⟨hend, rfl⟩
  | link _ k hk _ hlink hrest =>
      obtain rfl : k = 0 := by omega
      exact Or.inr ⟨hlink, _, rfl, hrest⟩

/-! ## The two operations -/

theorem badblock_eq_false {fs : Fs} {bno : Nat} (hlow : fs.fsIsize ≤ bno)
    (hhigh : bno < fs.fsFsize) : badblock fs bno = false := by
  simp only [badblock, Bool.or_eq_false_iff, decide_eq_false_iff_not]
  omega

theorem take_free_top {fs : Fs} {nfree : Nat} (hne : fs.fblk.dfFree nfree ≠ 0)
    (hgood : badblock fs (fs.fblk.dfFree nfree) = false) :
    takeFree fs (nfree + 1) = ([], some (fs.fblk.dfFree nfree, nfree)) := by
  simp [takeFree, hne, hgood]

theorem length_le_fsize {fsize : Nat} {blocks : List Nat} (hnodup : blocks.Nodup)
    (hlt : ∀ bno ∈ blocks, bno < fsize) : blocks.length ≤ fsize := by
  have hsub : blocks.toFinset ⊆ Finset.range fsize := by
    intro bno hbno
    exact Finset.mem_range.mpr (hlt bno (List.mem_toFinset.mp hbno))
  have hcard := Finset.card_le_card hsub
  rwa [List.toFinset_card_of_nodup hnodup, Finset.card_range] at hcard

/-- What `balloc` has to hand out before it touches the counters: the chain without its top. -/
theorem WellFormed.hand_out {vol vol' : Vol} {bno : Nat} {blocks : List Nat}
    (h : WellFormed vol (bno :: blocks)) (clrbuf : Bool) (messages : List String)
    (hchain : Chain vol'.block vol'.fs.fblk blocks) (hisize : vol'.fs.fsIsize = vol.fs.fsIsize)
    (hfsize : vol'.fs.fsFsize = vol.fs.fsFsize) (htfree : vol'.fs.fsTfree = vol.fs.fsTfree) :
    WellFormed (handOut clrbuf bno vol' messages).vol blocks := by
  have hnodup := List.nodup_cons.mp h.nodup
  refine ⟨?_, ?_, Or.inr ?_, hnodup.2, ?_, ?_⟩
  · show 0 < vol'.fs.fsIsize
    rw [hisize]
    exact h.isize_pos
  · show vol'.fs.fsFsize < 2 ^ 32
    rw [hfsize]
    exact h.fsize_lt
  · refine hchain.congr fun other hother => ?_
    show (if clrbuf then Function.update vol'.block bno ⟨0, fun _ => 0⟩ else vol'.block) other =
      vol'.block other
    cases clrbuf with
    | false => rfl
    | true =>
        refine Function.update_of_ne ?_ _ _
        rintro rfl
        exact hnodup.1 hother
  · intro other hother
    show vol'.fs.fsIsize ≤ other ∧ other < vol'.fs.fsFsize
    rw [hisize, hfsize]
    exact h.in_range other (List.mem_cons_of_mem _ hother)
  · show (vol'.fs.fsTfree + 2 ^ 32 - 1) % 2 ^ 32 = blocks.length
    have hlen := h.tfree
    have hle := length_le_fsize h.nodup fun other hother => (h.in_range other hother).2
    rw [List.length_cons] at hle
    have hlt := h.fsize_lt
    rw [htfree, hlen, List.length_cons]
    omega

/-- On a nonempty stack `balloc` pops. -/
theorem balloc_pop {vol : Vol} {bno : Nat} {blocks : List Nat} (h : WellFormed vol (bno :: blocks))
    (clrbuf : Bool) (time : Nat) :
    (balloc clrbuf time vol).bno = some bno ∧
      WellFormed (balloc clrbuf time vol).vol blocks := by
  have hchain : Chain vol.block vol.fs.fblk (bno :: blocks) := by
    rcases h.chain with ⟨-, hnil⟩ | hchain
    · cases hnil
    · exact hchain
  obtain ⟨hpos, hmax⟩ := hchain.nfree_bounds
  obtain ⟨hlow, hhigh⟩ := h.in_range bno List.mem_cons_self
  have hne : bno ≠ 0 := by
    have := h.isize_pos
    omega
  have hgood := badblock_eq_false hlow hhigh
  obtain ⟨nfree, hnfree⟩ : ∃ nfree : Nat, vol.fs.fblk.dfNfree = (nfree : Int) + 1 :=
    ⟨(vol.fs.fblk.dfNfree - 1).toNat, by omega⟩
  have htoNat : vol.fs.fblk.dfNfree.toNat = nfree + 1 := by omega
  unfold balloc
  rw [if_neg (by omega), if_neg (by omega), htoNat]
  cases nfree with
  | zero =>
      -- the last slot is used up: its block holds the next table
      rcases hchain.cases_one (by omega) with ⟨-, hnil⟩ | ⟨-, rest, hblocks, hrest⟩
      · cases hnil
      · injection hblocks with hbno hrest'
        subst hbno hrest'
        rw [take_free_top hne hgood]
        have hmore : ¬ (reload time (vol.fs.fblk.dfFree 0)
            { vol with fs := vol.fs.setNfree (0 : Nat) }).fs.fblk.dfNfree ≤ 0 :=
          not_le.mpr hrest.nfree_bounds.1
        simp only [if_true, if_neg hmore]
        exact ⟨rfl, h.hand_out clrbuf [] hrest rfl rfl rfl⟩
  | succ nfree =>
      push_cast at hnfree
      obtain ⟨rest, hblocks, hrest⟩ := hchain.pop hnfree
      injection hblocks with hbno hrest'
      subst hbno hrest'
      rw [take_free_top hne hgood]
      simp only [Nat.succ_ne_zero, if_false]
      refine ⟨rfl, h.hand_out clrbuf [] ?_ rfl rfl rfl⟩
      simpa [Fs.setNfree] using hrest

/-- On an empty stack `balloc` fails, and the stack stays empty. -/
theorem balloc_empty {vol : Vol} (h : WellFormed vol []) (clrbuf : Bool) (time : Nat) :
    (balloc clrbuf time vol).bno = none ∧ WellFormed (balloc clrbuf time vol).vol [] := by
  have hnospace : ∀ messages, WellFormed (nospace vol messages).vol [] := fun messages =>
    ⟨h.isize_pos, h.fsize_lt, Or.inl ⟨rfl, rfl⟩, List.nodup_nil, by simp, rfl⟩
  unfold balloc
  rcases h.chain with ⟨hzero, -⟩ | hchain
  · rw [if_pos (by omega)]
    exact ⟨rfl, hnospace _⟩
  · obtain ⟨hpos, hmax⟩ := hchain.nfree_bounds
    have hone : vol.fs.fblk.dfNfree = 1 := by
      by_contra hmore
      have htwo : vol.fs.fblk.dfNfree = ((vol.fs.fblk.dfNfree - 2).toNat : Int) + 1 + 1 := by omega
      obtain ⟨rest, hnil, -⟩ := hchain.pop htwo
      cases hnil
    rcases hchain.cases_one hone with ⟨hend, -⟩ | ⟨-, rest, hnil, -⟩
    · have htake : takeFree vol.fs vol.fs.fblk.dfNfree.toNat = ([], none) := by
        rw [hone]
        simp [takeFree, hend]
      rw [if_neg (by omega), if_neg (by omega), htake]
      exact ⟨rfl, hnospace _⟩
    · cases hnil

theorem start_table_chain {vol : Vol} {blocks : List Nat} (h : WellFormed vol blocks) :
    Chain vol.block (startTable vol.fs.fblk) blocks := by
  unfold startTable
  rcases h.chain with ⟨hzero, rfl⟩ | hchain
  · rw [if_pos (by omega)]
    exact .last _ 0 (by simp) (by decide) (by simp)
  · rw [if_neg (by have := hchain.nfree_bounds; omega)]
    exact hchain

/-- `free` of an allocated block of the data area pushes. -/
theorem free_push {vol : Vol} {bno : Nat} {blocks : List Nat} (h : WellFormed vol blocks)
    (hlow : vol.fs.fsIsize ≤ bno) (hhigh : bno < vol.fs.fsFsize) (hnew : bno ∉ blocks) :
    WellFormed (free bno vol) (bno :: blocks) := by
  have hchain := start_table_chain h
  obtain ⟨hpos, hmax⟩ := hchain.nfree_bounds
  have hnodup : (bno :: blocks).Nodup := List.nodup_cons.mpr ⟨hnew, h.nodup⟩
  have hrange : ∀ other ∈ bno :: blocks, vol.fs.fsIsize ≤ other ∧ other < vol.fs.fsFsize :=
    List.forall_mem_cons.mpr ⟨⟨hlow, hhigh⟩, h.in_range⟩
  have hlen := length_le_fsize hnodup fun other hother => (hrange other hother).2
  have hlt := h.fsize_lt
  have htfree : (vol.fs.fsTfree + 1) % 2 ^ 32 = (bno :: blocks).length := by
    rw [h.tfree, List.length_cons] at *
    omega
  unfold free
  rw [badblock_eq_false hlow hhigh]
  simp only [Bool.false_eq_true, if_false]
  refine ⟨h.isize_pos, hlt, Or.inr ?_, hnodup, hrange, htfree⟩
  by_cases hfull : (NICFREE : Int) ≤ (startTable vol.fs.fblk).dfNfree
  · -- the returned block takes the full table and becomes slot 0 of the new one
    simp only [hfull, if_true]
    have hkept : Chain (Function.update vol.block bno (startTable vol.fs.fblk))
        (startTable vol.fs.fblk) blocks := by
      refine hchain.congr fun other hother => Function.update_of_ne ?_ _ _
      rintro rfl
      exact hnew hother
    have hslot : Function.update (startTable vol.fs.fblk).dfFree (0 : Int).toNat bno 0 = bno := by
      simp
    have hlink : Chain (Function.update vol.block bno (startTable vol.fs.fblk))
        ⟨0 + 1, Function.update (startTable vol.fs.fblk).dfFree (0 : Int).toNat bno⟩
        (stacked (Function.update (startTable vol.fs.fblk).dfFree (0 : Int).toNat bno) 0 ++
          Function.update (startTable vol.fs.fblk).dfFree (0 : Int).toNat bno 0 :: blocks) := by
      refine .link _ 0 (by simp) (by decide) ?_ ?_
      · show Function.update (startTable vol.fs.fblk).dfFree (0 : Int).toNat bno 0 ≠ 0
        have := h.isize_pos
        omega
      · show Chain _ (Function.update vol.block bno (startTable vol.fs.fblk)
          (Function.update (startTable vol.fs.fblk).dfFree (0 : Int).toNat bno 0)) blocks
        rw [hslot, Function.update_self]
        exact hkept
    rwa [hslot] at hlink
  · simp only [hfull, if_false]
    obtain ⟨nfree, hnfree⟩ : ∃ nfree : Nat,
        (startTable vol.fs.fblk).dfNfree = (nfree : Int) + 1 :=
      ⟨((startTable vol.fs.fblk).dfNfree - 1).toNat, by omega⟩
    have hpush := hchain.push hnfree (by omega) bno
    have htoNat : ((nfree : Int) + 1).toNat = nfree + 1 := by omega
    rw [hnfree, htoNat]
    exact hpush

/-! ## Runs -/

/-- A file system and the blocks that are allocated. -/
structure State where
  vol : Vol
  used : Set Nat

/-- The contents of a block that is not free do not matter. -/
theorem WellFormed.store {vol : Vol} {blocks : List Nat} (h : WellFormed vol blocks) {bno : Nat}
    (hbno : bno ∉ blocks) (contents : Fblk) :
    WellFormed { vol with block := Function.update vol.block bno contents } blocks := by
  have hkept : ∀ other ∈ blocks, Function.update vol.block bno contents other =
      vol.block other := by
    intro other hother
    refine Function.update_of_ne ?_ _ _
    rintro rfl
    exact hbno hother
  refine ⟨h.isize_pos, h.fsize_lt, ?_, h.nodup, h.in_range, h.tfree⟩
  rcases h.chain with hempty | hchain
  · exact Or.inl hempty
  · exact Or.inr (hchain.congr hkept)

/-- What happens to a file system: `balloc` hands out a block or fails, a block is returned, and
the holder of a block stores something in it. -/
inductive Event where
  | balloc (bno : Nat)
  | nospace
  | free (bno : Nat)
  | store (bno : Nat) (contents : Fblk)

/-- One event. Only allocated blocks are returned or stored into. -/
inductive Step : State → Event → State → Prop where
  | balloc {st : State} (clrbuf : Bool) (time : Nat) {bno : Nat} :
      (Alloc.balloc clrbuf time st.vol).bno = some bno →
      Step st (.balloc bno) ⟨(Alloc.balloc clrbuf time st.vol).vol, insert bno st.used⟩
  | nospace {st : State} (clrbuf : Bool) (time : Nat) :
      (Alloc.balloc clrbuf time st.vol).bno = none →
      Step st .nospace ⟨(Alloc.balloc clrbuf time st.vol).vol, st.used⟩
  | free {st : State} {bno : Nat} : bno ∈ st.used →
      Step st (.free bno) ⟨Alloc.free bno st.vol, st.used \ {bno}⟩
  | store {st : State} {bno : Nat} (contents : Fblk) : bno ∈ st.used →
      Step st (.store bno contents)
        ⟨{ st.vol with block := Function.update st.vol.block bno contents }, st.used⟩

/-- The stack of free blocks, the allocated blocks beside it, and the two together. -/
structure Balanced (st : State) (blocks : List Nat) (all : Set Nat) : Prop where
  wellFormed : WellFormed st.vol blocks
  in_range : ∀ bno ∈ st.used, st.vol.fs.fsIsize ≤ bno ∧ bno < st.vol.fs.fsFsize
  apart : ∀ bno ∈ st.used, bno ∉ blocks
  all_eq : {bno | bno ∈ blocks} ∪ st.used = all

/-- The data area does not move. -/
theorem balloc_area (clrbuf : Bool) (time : Nat) (vol : Vol) :
    (balloc clrbuf time vol).vol.fs.fsIsize = vol.fs.fsIsize ∧
      (balloc clrbuf time vol).vol.fs.fsFsize = vol.fs.fsFsize := by
  unfold balloc
  split
  · exact ⟨rfl, rfl⟩
  · split
    · exact ⟨rfl, rfl⟩
    · split
      · exact ⟨rfl, rfl⟩
      · split
        · dsimp only
          split <;> exact ⟨rfl, rfl⟩
        · exact ⟨rfl, rfl⟩

theorem free_area (bno : Nat) (vol : Vol) :
    (free bno vol).fs.fsIsize = vol.fs.fsIsize ∧ (free bno vol).fs.fsFsize = vol.fs.fsFsize := by
  unfold free
  split <;> exact ⟨rfl, rfl⟩

/-- One event keeps the books. -/
theorem step_balanced {st st' : State} {event : Event} {blocks : List Nat} {all : Set Nat}
    (h : Balanced st blocks all) (hstep : Step st event st') :
    ∃ blocks', Balanced st' blocks' all := by
  obtain ⟨hwf, hrange, hapart, hall⟩ := h
  cases hstep with
  | balloc clrbuf time hbno =>
      rename_i bno
      obtain ⟨hisize, hfsize⟩ := balloc_area clrbuf time st.vol
      cases blocks with
      | nil =>
          rw [(balloc_empty hwf clrbuf time).1] at hbno
          cases hbno
      | cons top blocks =>
          obtain ⟨htop, hpop⟩ := balloc_pop hwf clrbuf time
          obtain rfl : top = bno := by simpa [htop] using hbno
          have hnodup := List.nodup_cons.mp hwf.nodup
          refine ⟨blocks, hpop, ?_, ?_, ?_⟩
          · intro other hother
            simp only [hisize, hfsize]
            rcases Set.mem_insert_iff.mp hother with rfl | hother
            · exact hwf.in_range other List.mem_cons_self
            · exact hrange other hother
          · intro other hother hmem
            rcases Set.mem_insert_iff.mp hother with rfl | hother
            · exact hnodup.1 hmem
            · exact hapart other hother (List.mem_cons_of_mem _ hmem)
          · rw [← hall]
            ext other
            simp only [Set.mem_union, Set.mem_ofPred_eq, Set.mem_insert_iff, List.mem_cons]
            tauto
  | nospace clrbuf time hbno =>
      obtain ⟨hisize, hfsize⟩ := balloc_area clrbuf time st.vol
      cases blocks with
      | nil =>
          refine ⟨[], (balloc_empty hwf clrbuf time).2, ?_, by simp, hall⟩
          simpa only [hisize, hfsize] using hrange
      | cons top blocks =>
          rw [(balloc_pop hwf clrbuf time).1] at hbno
          cases hbno
  | free hused =>
      rename_i bno
      obtain ⟨hisize, hfsize⟩ := free_area bno st.vol
      obtain ⟨hlow, hhigh⟩ := hrange bno hused
      refine ⟨bno :: blocks, free_push hwf hlow hhigh (hapart bno hused), ?_, ?_, ?_⟩
      · intro other hother
        simp only [hisize, hfsize]
        exact hrange other hother.1
      · intro other hother hmem
        rcases List.mem_cons.mp hmem with rfl | hmem
        · exact hother.2 rfl
        · exact hapart other hother.1 hmem
      · rw [← hall]
        ext other
        by_cases heq : other = bno
        · simp [heq, hused]
        · simp [heq]
  | store contents hused =>
      exact ⟨blocks, ⟨hwf.store (hapart _ hused) contents, hrange, hapart, hall⟩⟩

theorem run_balanced {st st' : State} {events : List Event} {blocks : List Nat} {all : Set Nat}
    (h : Balanced st blocks all) (hrun : Steps Step st events st') :
    ∃ blocks', Balanced st' blocks' all := by
  refine hrun.invariant (fun state => ∃ blocks', Balanced state blocks' all) ?_ ⟨blocks, h⟩
  rintro state event next ⟨blocks', hbalanced⟩ hstep
  exact step_balanced hbalanced hstep

/-- A block that is allocated stays allocated until it is returned. -/
theorem run_used {st st' : State} {events : List Event} {bno : Nat}
    (hrun : Steps Step st events st') (hused : bno ∈ st.used)
    (hkept : Event.free bno ∉ events) : bno ∈ st'.used := by
  induction hrun with
  | refl _ => exact hused
  | cons hstep _ ih =>
      refine ih ?_ fun hmem => hkept (List.mem_cons_of_mem _ hmem)
      cases hstep with
      | balloc _ _ _ => exact Set.mem_insert_of_mem _ hused
      | nospace _ _ _ => exact hused
      | free hother =>
          refine ⟨hused, ?_⟩
          rintro rfl
          exact hkept List.mem_cons_self
      | store _ _ => exact hused

/-- `balloc` never hands out a block that is allocated. -/
theorem balloc_unused {st : State} {blocks : List Nat} {all : Set Nat}
    (h : Balanced st blocks all) {clrbuf : Bool} {time bno : Nat}
    (hbno : (balloc clrbuf time st.vol).bno = some bno) : bno ∈ blocks ∧ bno ∉ st.used := by
  cases blocks with
  | nil =>
      rw [(balloc_empty h.wellFormed clrbuf time).1] at hbno
      cases hbno
  | cons top blocks =>
      rw [(balloc_pop h.wellFormed clrbuf time).1] at hbno
      cases hbno
      exact ⟨List.mem_cons_self, fun hused => h.apart _ hused List.mem_cons_self⟩

/-- Between two events that hand out the same block it is returned. -/
theorem run_returned {st st' : State} {before mid after : List Event} {blocks : List Nat}
    {all : Set Nat} {bno : Nat} (h : Balanced st blocks all)
    (hrun : Steps Step st (before ++ .balloc bno :: (mid ++ .balloc bno :: after)) st') :
    Event.free bno ∈ mid := by
  obtain ⟨first, hbefore, hrest⟩ := hrun.split
  obtain ⟨firstBlocks, hfirst⟩ := run_balanced h hbefore
  cases hrest with
  | cons hstep hrest =>
      obtain ⟨second, hmid, hlast⟩ := hrest.split
      obtain ⟨nextBlocks, hnext⟩ := step_balanced hfirst hstep
      obtain ⟨secondBlocks, hsecond⟩ := run_balanced hnext hmid
      by_contra hkept
      have hused : bno ∈ second.used := by
        refine run_used hmid ?_ hkept
        cases hstep with
        | balloc _ _ _ => exact Set.mem_insert _ _
      cases hlast with
      | cons hagain _ =>
          cases hagain with
          | balloc _ _ hbno => exact (balloc_unused hsecond hbno).2 hused

/-- From any well-formed free list, for every sequence of `balloc`, `free` of allocated blocks and
stores into them: the free list stays well formed, with `fs_tfree` the number of its blocks;
no block is ever lost; allocated blocks are never free; `balloc` takes a block that was free
off the list, and fails exactly when there is none; and a block is handed out again only after
it was returned. -/
theorem free_list_run {st st' : State} {events : List Event} {blocks : List Nat}
    (hwf : WellFormed st.vol blocks)
    (hused : ∀ bno ∈ st.used, st.vol.fs.fsIsize ≤ bno ∧ bno < st.vol.fs.fsFsize ∧ bno ∉ blocks)
    (hrun : Steps Step st events st') :
    (∃ blocks', WellFormed st'.vol blocks' ∧
      (∀ bno ∈ st'.used, bno ∉ blocks') ∧
      {bno | bno ∈ blocks'} ∪ st'.used = {bno | bno ∈ blocks} ∪ st.used ∧
      (∀ clrbuf time, (balloc clrbuf time st'.vol).bno = none ↔ blocks' = []) ∧
      (∀ clrbuf time bno, (balloc clrbuf time st'.vol).bno = some bno →
        bno ∈ blocks' ∧ bno ∉ st'.used ∧
          WellFormed (balloc clrbuf time st'.vol).vol (blocks'.erase bno)) ∧
      (∀ bno ∈ st'.used, WellFormed (free bno st'.vol) (bno :: blocks'))) ∧
    (∀ before bno mid after, events = before ++ .balloc bno :: (mid ++ .balloc bno :: after) →
      Event.free bno ∈ mid) := by
  have hinit : Balanced st blocks ({bno | bno ∈ blocks} ∪ st.used) :=
    ⟨hwf, fun bno hbno => ⟨(hused bno hbno).1, (hused bno hbno).2.1⟩,
      fun bno hbno => (hused bno hbno).2.2, rfl⟩
  refine ⟨?_, ?_⟩
  · obtain ⟨blocks', hbalanced⟩ := run_balanced hinit hrun
    have hwf' := hbalanced.wellFormed
    refine ⟨blocks', hwf', hbalanced.apart, hbalanced.all_eq, ?_, ?_, ?_⟩
    · intro clrbuf time
      cases blocks' with
      | nil => simp [(balloc_empty hwf' clrbuf time).1]
      | cons top rest => simp [(balloc_pop hwf' clrbuf time).1]
    · intro clrbuf time bno hbno
      obtain ⟨hmem, hunused⟩ := balloc_unused hbalanced hbno
      refine ⟨hmem, hunused, ?_⟩
      cases blocks' with
      | nil => cases hmem
      | cons top rest =>
          obtain ⟨htop, hpop⟩ := balloc_pop hwf' clrbuf time
          obtain rfl : top = bno := by simpa [htop] using hbno
          rwa [List.erase_cons_head]
    · intro bno hbno
      obtain ⟨hlow, hhigh⟩ := hbalanced.in_range bno hbno
      exact free_push hwf' hlow hhigh (hbalanced.apart bno hbno)
  · rintro before bno mid after rfl
    exact run_returned hinit hrun

/-- A file system of blocks 2 to 9 with two tables: block 5 holds the second one, whose only free
block is 7. -/
def smallVol : Vol where
  fs := ⟨2, 10, ⟨1, fun _ => 5⟩, 0, 0, 0, 2⟩
  superb := ⟨2, 10, ⟨1, fun _ => 5⟩, 0, 0, 0, 2⟩
  block := fun _ => ⟨2, fun slot => if slot = 0 then 0 else 7⟩

theorem small_vol_well_formed : WellFormed smallVol [5, 7] := by
  refine ⟨by decide, by decide, Or.inr ?_, by decide, by decide, rfl⟩
  exact .link _ 0 rfl (by decide) (by decide) (.last _ 1 rfl (by decide) rfl)

/-- Both blocks are handed out, the third request fails, and block 7 comes back. -/
theorem free_list_run_small_vol :
    ∃ st', Steps Step ⟨smallVol, ∅⟩ [.balloc 5, .balloc 7, .nospace, .free 7] st' ∧
      ∃ blocks', WellFormed st'.vol blocks' ∧
        {bno | bno ∈ blocks'} ∪ st'.used = {bno | bno ∈ [5, 7]} := by
  have hrun : ∃ st', Steps Step ⟨smallVol, ∅⟩ [.balloc 5, .balloc 7, .nospace, .free 7] st' :=
    ⟨_, .cons (.balloc false 0 rfl) (.cons (.balloc false 0 rfl) (.cons (.nospace false 0 rfl)
      (.cons (.free (by simp)) (.refl _))))⟩
  obtain ⟨st', hrun⟩ := hrun
  obtain ⟨⟨blocks', hwf, -, hall, -⟩, -⟩ :=
    free_list_run small_vol_well_formed (by simp) hrun
  exact ⟨st', hrun, blocks', hwf, by simpa using hall⟩

/-- A chain whose blocks may hold tables without any slot in use. -/
inductive LooseChain (block : Nat → Fblk) : Fblk → List Nat → Prop where
  | empty (tbl : Fblk) : tbl.dfNfree = 0 → LooseChain block tbl []
  | last (tbl : Fblk) (nfree : Nat) : tbl.dfNfree = (nfree : Int) + 1 → nfree < NICFREE →
      tbl.dfFree 0 = 0 → LooseChain block tbl (stacked tbl.dfFree nfree)
  | link (tbl : Fblk) (nfree : Nat) {rest : List Nat} : tbl.dfNfree = (nfree : Int) + 1 →
      nfree < NICFREE → tbl.dfFree 0 ≠ 0 → LooseChain block (block (tbl.dfFree 0)) rest →
      LooseChain block tbl (stacked tbl.dfFree nfree ++ tbl.dfFree 0 :: rest)

/-- A free list with loose chains and without a bound on `fs_isize`. -/
def Loose (vol : Vol) (blocks : List Nat) : Prop :=
  0 < vol.fs.fblk.dfNfree ∧ vol.fs.fblk.dfNfree ≤ NICFREE ∧
  LooseChain vol.block vol.fs.fblk blocks ∧ blocks.Nodup ∧
  (∀ bno ∈ blocks, vol.fs.fsIsize ≤ bno ∧ bno < vol.fs.fsFsize) ∧
  vol.fs.fsTfree = blocks.length

/-- Block 5 is free and holds a table without slots. -/
def emptyTableVol : Vol where
  fs := ⟨2, 10, ⟨1, fun _ => 5⟩, 0, 0, 0, 1⟩
  superb := ⟨2, 10, ⟨1, fun _ => 5⟩, 0, 0, 0, 1⟩
  block := fun _ => ⟨0, fun _ => 0⟩

/-- No block is free. -/
def fullVol : Vol where
  fs := ⟨2, 10, ⟨1, fun _ => 0⟩, 0, 0, 0, 0⟩
  superb := ⟨2, 10, ⟨1, fun _ => 0⟩, 0, 0, 0, 0⟩
  block := fun _ => ⟨0, fun _ => 0⟩

/-- The data area starts at block 0, and block 0 is free. -/
def blockZeroVol : Vol where
  fs := ⟨0, 10, ⟨2, fun _ => 0⟩, 0, 0, 0, 1⟩
  superb := ⟨0, 10, ⟨2, fun _ => 0⟩, 0, 0, 0, 1⟩
  block := fun _ => ⟨0, fun _ => 0⟩

/-- With loose free lists `balloc` fails and loses a free block when the block's table has no slot
in use, or when the free block is block 0; and its failure on an empty list leaves a superblock
with no slot in use. -/
theorem loose_free_list_not_enough :
    (Loose emptyTableVol [5] ∧ (balloc false 0 emptyTableVol).bno = none) ∧
    (Loose blockZeroVol [0] ∧ (balloc false 0 blockZeroVol).bno = none) ∧
    (Loose fullVol [] ∧ (balloc false 0 fullVol).vol.fs.fblk.dfNfree = 0) := by
  refine ⟨⟨⟨by decide, by decide, ?_, by decide, by decide, rfl⟩, rfl⟩,
    ⟨⟨by decide, by decide, ?_, by decide, by decide, rfl⟩, rfl⟩,
    ⟨⟨by decide, by decide, ?_, by decide, by decide, rfl⟩, rfl⟩⟩
  · exact .link _ 0 rfl (by decide) (by decide) (.empty _ rfl)
  · exact .last _ 1 rfl (by decide) rfl
  · exact .last _ 0 rfl (by decide) rfl

end DiscoBsd.Alloc
