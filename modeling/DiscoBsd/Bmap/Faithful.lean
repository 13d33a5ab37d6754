import DiscoBsd.Bmap.Mapping

/-!
# The block map is faithful

`bmap_faithful` is the result: a read changes nothing and returns what is recorded, a write records one
block more and nothing else, `EFBIG` marks the blocks without a place, and no two blocks
share a pointer. A write needs a free block for everything that is missing; when they run out it
returns -1, and the indirect blocks it has made stay behind without any effect on the map.
-/

namespace DiscoBsd.Bmap

open Alloc Lib.Pointers

/-- What `balloc` does on a well-formed free list. -/
theorem balloc_taken {vol : Vol} {free : List Nat} (h : WellFormed vol free) (clrbuf : Bool)
    (time : Nat) :
    (free = [] ∧ (balloc clrbuf time vol).bno = none ∧ WellFormed (balloc clrbuf time vol).vol [] ∧
        (balloc clrbuf time vol).vol.block = vol.block) ∨
      ∃ bno rest, free = bno :: rest ∧ (balloc clrbuf time vol).bno = some bno ∧
        WellFormed (balloc clrbuf time vol).vol rest ∧
        (∀ other, other ≠ bno →
          (balloc clrbuf time vol).vol.block other = vol.block other) ∧
        (clrbuf = true → ∀ i, words (balloc clrbuf time vol).vol bno i = 0) := by
  have hblock : (balloc clrbuf time vol).vol.block =
      (balloc clrbuf time vol).bno.elim vol.block fun bno =>
        if clrbuf then Function.update vol.block bno ⟨0, fun _ => 0⟩ else vol.block := by
    unfold balloc
    split
    · rfl
    · split
      · rfl
      · split
        · rfl
        · dsimp only
          split
          · split <;> rfl
          · rfl
  cases free with
  | nil =>
      obtain ⟨hnone, hwf⟩ := balloc_empty h clrbuf time
      rw [hnone] at hblock
      exact Or.inl ⟨rfl, hnone, hwf, hblock⟩
  | cons bno rest =>
      obtain ⟨hsome, hwf⟩ := balloc_pop h clrbuf time
      rw [hsome, Option.elim_some] at hblock
      refine Or.inr ⟨bno, rest, rfl, hsome, hwf, ?_, ?_⟩
      · intro other hne
        rw [hblock]
        split
        · exact Function.update_of_ne hne _ _
        · rfl
      · rintro rfl i
        rw [if_pos rfl] at hblock
        have hzero : (balloc true time vol).vol.block bno = ⟨0, fun _ => 0⟩ := by
          rw [hblock, Function.update_self]
        unfold words word
        rw [hzero]
        simp

/-- What a search with `B_WRITE` in one tree does. -/
structure Fetched (f : File) (levels p : Nat) (indices free added rest : List Nat)
    (r : Result × File) : Prop where
  free_eq : free = added ++ rest
  wellFormed : WellFormed r.2.vol rest
  area : r.2.vol.fs.fsIsize = f.vol.fs.fsIsize ∧ r.2.vol.fs.fsFsize = f.vol.fs.fsFsize
  addr : r.2.i_addr = f.i_addr
  extended : Extended f.vol r.2.vol levels p p added indices
  frame : ∀ b, b ∉ blocks NINDIR (words f.vol) levels p → b ∉ added →
    r.2.vol.block b = f.vol.block b
  result : (∃ b : Nat, b ≠ 0 ∧ r.1 = ⟨b, none⟩ ∧ follow (words r.2.vol) indices p = b) ∨
    r.1 = ⟨-1, some .ENOSPC⟩ ∧ rest = [] ∧ follow (words r.2.vol) indices p = 0

theorem Extended.refl {vol vol' : Vol} {levels p : Nat} {indices : List Nat}
    (h : vol'.block = vol.block) : Extended vol vol' levels p p [] indices := by
  have hwords : words vol' = words vol := by
    funext b i
    exact words_congr (congrFun h b) i
  exact ⟨by rw [hwords]; simp, fun _ _ _ _ => by rw [hwords], fun _ => by rw [hwords]⟩

/-- A tree that starts with a new, empty block. -/
theorem Extended.fresh {vol vol' : Vol} {levels b : Nat} {added indices : List Nat}
    (h : Extended vol vol' levels b b added indices) (hb : b ≠ 0)
    (hcleared : ∀ i, words vol b i = 0) (old : Vol) :
    Extended old vol' levels 0 b (b :: added) indices := by
  refine ⟨?_, ?_, fun hne => absurd (follow_null _) hne⟩
  · have hperm := h.blocks
    rw [blocks_cleared NINDIR levels hb fun i _ => hcleared i] at hperm
    rw [blocks_null, List.append_nil]
    exact hperm.trans (List.perm_append_singleton b added)
  · intro other hother hlt hne
    rw [h.others other hother hlt hne, follow_null]
    cases other with
    | nil => exact absurd List.nil_prefix hne
    | cons k rest => exact follow_cleared (hcleared k)

theorem index_eq (bn levels : Nat) :
    bn / 2 ^ (8 * (levels + 1) - NSHIFT) % NINDIR = bn / NINDIR ^ levels % NINDIR := by
  have hshift : 8 * (levels + 1) - NSHIFT = 8 * levels := by
    simp only [NSHIFT]
    omega
  rw [hshift, Nat.pow_mul]
  rfl

/-- Missing blocks are added on the path, and only there. -/
theorem fetch_extends (time ra bn : Nat) {levels nb : Nat} {f : File} {free : List Nat}
    (hwf : WellFormed f.vol free) (hnb : nb ≠ 0)
    (hnodup : (blocks NINDIR (words f.vol) levels nb ++ free).Nodup) :
    ∃ added rest, Fetched f levels nb (digits levels bn) free added rest
      (fetch true time bn levels (8 * levels) nb ra f) := by
  induction levels generalizing ra nb f free with
  | zero =>
      refine ⟨[], free, rfl, hwf, ⟨rfl, rfl⟩, rfl, .refl rfl, fun _ _ _ => rfl, ?_⟩
      exact Or.inl ⟨nb, hnb, rfl, rfl⟩
  | succ levels ih =>
      obtain ⟨htree, hfree, hapart⟩ := List.nodup_append.mp hnodup
      have hi : bn / NINDIR ^ levels % NINDIR < NINDIR := Nat.mod_lt _ (by decide)
      have hshift : 8 * (levels + 1) - NSHIFT = 8 * levels := by
        simp only [NSHIFT]
        omega
      have hdigits : digits (levels + 1) bn =
          bn / NINDIR ^ levels % NINDIR :: digits levels bn := rfl
      unfold fetch
      dsimp only
      rw [index_eq, hshift, hdigits]
      generalize bn / NINDIR ^ levels % NINDIR = i at *
      generalize (if i < NINDIR - 1 then words f.vol nb (i + 1) else ra) = ra'
      have hnot : nb ∉ free := fun hmem => hapart nb (root_mem_blocks hnb) nb hmem rfl
      by_cases hchild : words f.vol nb i = 0
      · rw [if_pos hchild, if_pos rfl]
        unfold File.balloc
        rcases balloc_taken hwf true time with
          ⟨rfl, hnone, hwf', hblock⟩ | ⟨b, rest, rfl, hsome, hwf', hother, hzero⟩
        · rw [hnone]
          have hwords : words (balloc true time f.vol).vol nb i = 0 :=
            (words_congr (congrFun hblock nb) i).trans hchild
          refine ⟨[], [], rfl, hwf', balloc_area true time f.vol, rfl, .refl hblock,
            fun b _ _ => congrFun hblock b, Or.inr ⟨rfl, rfl, ?_⟩⟩
          simp only [follow, if_neg hnb]
          rw [hwords, follow_null]
        · rw [hsome]
          dsimp only
          have hb : b ≠ 0 := by
            have hlow := (hwf.in_range b List.mem_cons_self).1
            have hpos := hwf.isize_pos
            omega
          have hsmall : b < 2 ^ 32 :=
            lt_trans (hwf.in_range b List.mem_cons_self).2 hwf.fsize_lt
          have hne : b ≠ nb := fun heq => hnot (heq ▸ List.mem_cons_self)
          have hnb' : nb ∉ rest := fun hmem => hnot (List.mem_cons_of_mem _ hmem)
          -- the volume with the new block in its place
          let f' : File := ({ f with vol := (balloc true time f.vol).vol } : File).setPointer nb i b
          have hwf'' : WellFormed f'.vol rest := hwf'.store hnb' _
          have hframe' : ∀ c, c ≠ nb → c ≠ b → f'.vol.block c = f.vol.block c := fun c hc hc' =>
            (Function.update_of_ne hc _ _).trans (hother c hc')
          have hroot : f'.vol.block nb = setWord (f.vol.block nb) i b :=
            (Function.update_self ..).trans (by
              show setWord ((balloc true time f.vol).vol.block nb) i b = _
              rw [hother nb hne.symm])
          have hcleared : ∀ k, words f'.vol b k = 0 := fun k =>
            (words_congr (Function.update_of_ne hne _ _) k).trans (hzero rfl k)
          have hsingle := blocks_cleared NINDIR levels hb
            fun k _ => hcleared k
          obtain ⟨added, last, hfetched⟩ := ih ra' hwf'' hb
            (by rw [hsingle]; exact hfree)
          obtain ⟨heq, hlast, harea, haddr, hext, hframe, hresult⟩ := hfetched
          rw [hsingle] at hframe
          have hadded : ∀ c ∈ added, c ∈ rest := fun c hc => by
            rw [heq]
            exact List.mem_append_left _ hc
          have hself := hframe nb (fun hmem => hne (List.mem_singleton.mp hmem).symm)
            fun hmem => hnb' (hadded nb hmem)
          obtain ⟨r, hr⟩ : ∃ r, r = fetch true time bn levels (8 * levels) b ra' f' := ⟨_, rfl⟩
          rw [← hr] at hlast harea haddr hext hframe hresult hself
          show ∃ grown left, Fetched f (levels + 1) nb (i :: digits levels bn) (b :: rest) grown left
            (fetch true time bn levels (8 * levels) b ra' f')
          rw [← hr]
          have hpointer : words r.2.vol nb i = b := by
            rw [words, hself, hroot]
            exact word_setWord_same _ i hsmall
          have hpointers : ∀ j < NINDIR, j ≠ i → words r.2.vol nb j = words f.vol nb j := by
            intro j _ hj
            rw [words, hself, hroot]
            exact word_setWord_other _ b hj
          have hnew : Extended f.vol r.2.vol levels (words f.vol nb i) b (b :: added)
              (digits levels bn) := by
            rw [hchild]
            exact hext.fresh hb hcleared f.vol
          refine ⟨b :: added, last, by rw [heq, List.cons_append], hlast, ?_, haddr, ?_, ?_, ?_⟩
          · rw [harea.1, harea.2]
            exact balloc_area true time f.vol
          · refine hnew.parent htree hnb hi hpointer hpointers ?_ ?_
            · intro c hc _ hc'
              obtain ⟨hcb, hcadded⟩ := not_or.mp (mt List.mem_cons.mpr hc')
              exact (hframe c (fun hmem => hcb (List.mem_singleton.mp hmem)) hcadded).trans
                (hframe' c hc hcb)
            · intro c hc hmem
              refine hapart c hmem c ?_ rfl
              rcases List.mem_cons.mp hc with rfl | hc'
              · exact List.mem_cons_self
              · exact List.mem_cons_of_mem _ (hadded c hc')
          · intro c hc hc'
            obtain ⟨hcb, hcadded⟩ := not_or.mp (mt List.mem_cons.mpr hc')
            refine (hframe c (fun hmem => hcb (List.mem_singleton.mp hmem)) hcadded).trans
              (hframe' c ?_ hcb)
            rintro rfl
            exact hc (root_mem_blocks hnb)
          · simp only [follow, if_neg hnb]
            rw [hpointer]
            exact hresult
      · rw [if_neg hchild]
        have hsub : ∀ b ∈ blocks NINDIR (words f.vol) levels (words f.vol nb i),
            b ∈ blocks NINDIR (words f.vol) (levels + 1) nb :=
          fun b hb => child_mem_blocks hnb hi hb
        obtain ⟨added, rest, hfetched⟩ := ih ra' hwf hchild
          (List.nodup_append.mpr ⟨nodup_child htree hnb hi, hfree,
            fun b hb c hc => hapart b (hsub b hb) c hc⟩)
        obtain ⟨heq, hwf', harea, haddr, hext, hframe, hresult⟩ := hfetched
        have hadded : ∀ b ∈ added, b ∈ free := fun b hb => by
          rw [heq]
          exact List.mem_append_left _ hb
        have hself := hframe nb (root_notMem_child htree hnb hi) fun hmem => hnot (hadded nb hmem)
        refine ⟨added, rest, heq, hwf', harea, haddr, ?_, ?_, ?_⟩
        · refine hext.parent htree hnb hi (words_congr hself i)
            (fun j _ _ => words_congr hself j) (fun b _ => hframe b) ?_
          exact fun b hb hmem => hapart b hmem b (hadded b hb) rfl
        · exact fun b hb hb' => hframe b (fun hmem => hb (hsub b hmem)) hb'
        · simp only [follow, if_neg hnb]
          rw [words_congr hself i]
          exact hresult

/-! ## The whole file -/

/-- Blocks added to one of the trees of a file. -/
theorem Sound.extend {f f' : File} {free added rest indices : List Nat} {a : Nat}
    (h : Sound f free) (ha : a < NADDR) (hfree : free = added ++ rest)
    (hwf : WellFormed f'.vol rest)
    (harea : f'.vol.fs.fsIsize = f.vol.fs.fsIsize ∧ f'.vol.fs.fsFsize = f.vol.fs.fsFsize)
    (haddr : ∀ other, other ≠ a → f'.i_addr other = f.i_addr other)
    (hext : Extended f.vol f'.vol (height a) (f.i_addr a) (f'.i_addr a) added indices)
    (hframe : ∀ b, b ∉ blocks NINDIR (words f.vol) (height a) (f.i_addr a) → b ∉ added →
      f'.vol.block b = f.vol.block b) :
    Sound f' rest ∧ ∀ (other : Nat) (place : List Nat), other < NADDR →
      place.length ≤ height other → (∀ i ∈ place, i < NINDIR) →
      ¬ (other = a ∧ place <+: indices) →
      follow (words f'.vol) place (f'.i_addr other) =
        follow (words f.vol) place (f.i_addr other) := by
  obtain ⟨hfile, hnodup, hapart⟩ := List.nodup_append.mp h.nodup
  have hmem : ∀ {other b : Nat}, other < NADDR →
      b ∈ blocks NINDIR (words f.vol) (height other) (f.i_addr other) → b ∈ fileBlocks f :=
    fun hlt hb => List.mem_flatMap.mpr ⟨_, List.mem_range.mpr hlt, hb⟩
  have hadded : ∀ b ∈ added, b ∈ free := fun b hb => hfree ▸ List.mem_append_left _ hb
  -- the other trees are as before
  have hinner : ∀ other < NADDR, other ≠ a →
      ∀ b ∈ inner NINDIR (words f.vol) (height other) (f.i_addr other),
        ∀ k < NINDIR, words f'.vol b k = words f.vol b k := by
    intro other hlt hne b hb k _
    have hb' := inner_subset_blocks hb
    refine words_congr (hframe b ?_ ?_) k
    · exact flatMap_apart (f := fun a => blocks NINDIR (words f.vol) (height a) (f.i_addr a)) hfile
        hlt ha hne hb'
    · exact fun hnew => hapart b (hmem hlt hb') b (hadded b hnew) rfl
  have hperm : (fileBlocks f').Perm (added ++ fileBlocks f) := by
    refine flatMap_perm_append ha hext.blocks fun other hlt hne => ?_
    rw [haddr other hne]
    exact blocks_congr (hinner other hlt hne)
  refine ⟨⟨hwf, ?_, ?_⟩, ?_⟩
  · have hmoved : (fileBlocks f' ++ rest).Perm (fileBlocks f ++ free) := by
      rw [hfree]
      refine (hperm.append_right rest).trans ?_
      rw [List.append_assoc]
      exact List.perm_append_comm_assoc ..
    exact hmoved.symm.nodup h.nodup
  · intro bno hbno
    rw [harea.1, harea.2]
    rcases List.mem_append.mp (hperm.subset hbno) with hnew | hold
    · exact h.wellFormed.in_range bno (hadded bno hnew)
    · exact h.in_range bno hold
  · intro other place hlt hlength hplace hne
    by_cases heq : other = a
    · subst heq
      exact hext.others place hlength hplace fun hpre => hne ⟨rfl, hpre⟩
    · rw [haddr other heq]
      exact follow_congr hlength hplace (hinner other hlt heq)

/-- What a call with `B_WRITE` does for a block with a place. -/
structure Written (f : File) (bn : Int) (rest : List Nat) (r : Result × File) : Prop where
  sound : Sound r.2 rest
  others : ∀ other, other ≠ bn → recorded r.2 other = recorded f other
  kept : recorded f bn ≠ 0 → recorded r.2 bn = recorded f bn
  nodes : ∀ (other : Nat) (place : List Nat), other < NADDR → place.length ≤ height other →
    (∀ i ∈ place, i < NINDIR) → (∀ indices, path bn = some (other, indices) → ¬ place <+: indices) →
    follow (words r.2.vol) place (r.2.i_addr other) = follow (words f.vol) place (f.i_addr other)
  result : (∃ b : Nat, b ≠ 0 ∧ r.1 = ⟨b, none⟩ ∧ recorded r.2 bn = b) ∨
    r.1 = ⟨-1, some .ENOSPC⟩ ∧ rest = [] ∧ recorded r.2 bn = 0

/-- The mapping of a file of which one tree has been extended. -/
theorem Sound.written {f : File} {r : Result × File} {free rest indices : List Nat} {a : Nat}
    {bn : Int} (added : List Nat) (h : Sound f free) (hpath : path bn = some (a, indices))
    (hfree : free = added ++ rest) (hwf : WellFormed r.2.vol rest)
    (harea : r.2.vol.fs.fsIsize = f.vol.fs.fsIsize ∧ r.2.vol.fs.fsFsize = f.vol.fs.fsFsize)
    (haddr : ∀ other, other ≠ a → r.2.i_addr other = f.i_addr other)
    (hext : Extended f.vol r.2.vol (height a) (f.i_addr a) (r.2.i_addr a) added indices)
    (hframe : ∀ b, b ∉ blocks NINDIR (words f.vol) (height a) (f.i_addr a) → b ∉ added →
      r.2.vol.block b = f.vol.block b)
    (hresult : (∃ b : Nat, b ≠ 0 ∧ r.1 = ⟨b, none⟩ ∧
        follow (words r.2.vol) indices (r.2.i_addr a) = b) ∨
      r.1 = ⟨-1, some .ENOSPC⟩ ∧ rest = [] ∧
        follow (words r.2.vol) indices (r.2.i_addr a) = 0) : Written f bn rest r := by
  obtain ⟨ha, -, -⟩ := path_fits hpath
  obtain ⟨hsound, hothers⟩ := h.extend ha hfree hwf harea haddr hext hframe
  have hrecorded : ∀ g : File, recorded g bn = follow (words g.vol) indices (g.i_addr a) := by
    intro g
    simp only [recorded, hpath]
  refine ⟨hsound, ?_, ?_, ?_, ?_⟩
  · intro other hne
    unfold recorded
    cases hother : path other with
    | none => rfl
    | some found =>
        obtain ⟨slot, place⟩ := found
        obtain ⟨hlt, hlength, hplace⟩ := path_fits hother
        refine hothers slot place hlt hlength.le hplace fun ⟨hslot, hpre⟩ => hne ?_
        subst hslot
        have hindices := (path_fits hpath).2.1
        rw [hpre.eq_of_length (hlength.trans hindices.symm)] at hother
        exact path_injective hother hpath
  · rw [hrecorded, hrecorded]
    exact hext.found
  · intro other place hlt hlength hplace hapart
    refine hothers other place hlt hlength hplace fun ⟨hslot, hpre⟩ => ?_
    subst hslot
    exact hapart indices hpath hpre
  · rw [hrecorded]
    exact hresult

/-! ## `bmap` -/

/-- A search with `B_READ` in one tree. -/
theorem fetch_reads (time ra bn : Nat) {levels nb : Nat} (hnb : nb ≠ 0) (f : File) :
    (fetch false time bn levels (8 * levels) nb ra f).1 =
        (if follow (words f.vol) (digits levels bn) nb = 0 then ⟨-1, none⟩
          else ⟨follow (words f.vol) (digits levels bn) nb, none⟩) ∧
      ∃ rablock, (fetch false time bn levels (8 * levels) nb ra f).2 =
        { f with rablock := rablock } := by
  induction levels generalizing ra nb with
  | zero =>
      refine ⟨?_, ra, rfl⟩
      simp only [fetch, digits, follow]
      rw [if_neg hnb]
  | succ levels ih =>
      have hshift : 8 * (levels + 1) - NSHIFT = 8 * levels := by
        simp only [NSHIFT]
        omega
      simp only [digits, follow, if_neg hnb]
      unfold fetch
      dsimp only
      rw [index_eq, hshift]
      generalize bn / NINDIR ^ levels % NINDIR = i at *
      by_cases hchild : words f.vol nb i = 0
      · rw [if_pos hchild, hchild, follow_null, if_pos rfl]
        exact ⟨rfl, f.rablock, rfl⟩
      · rw [if_neg hchild]
        exact ih _ hchild

/-- `bmap` with `B_READ` returns what is recorded and changes nothing but the hint for reading
ahead. -/
theorem bmap_reads (clrbuf : Bool) (time : Nat) (bn : Int) (f : File) :
    (bmap false clrbuf time bn f).1 =
        (if path bn = none then ⟨0, some .EFBIG⟩
          else if recorded f bn = 0 then ⟨-1, none⟩ else ⟨recorded f bn, none⟩) ∧
      ∃ rablock, (bmap false clrbuf time bn f).2 = { f with rablock := rablock } := by
  unfold bmap
  dsimp only
  by_cases hneg : bn < 0
  · rw [if_pos hneg, if_pos (path_none.mpr (Or.inl hneg))]
    exact ⟨rfl, f.rablock, rfl⟩
  rw [if_neg hneg]
  have hslots : NADDR - 3 = 4 := rfl
  by_cases hdirect : bn < (NADDR - 3 : Nat)
  · have hpath : path bn = some (bn.toNat, []) := by
      unfold path
      rw [if_neg hneg, if_pos (by omega)]
    have hrecorded : recorded f bn = f.i_addr bn.toNat := by
      simp only [recorded, hpath, follow]
    rw [if_pos hdirect, hpath, hrecorded, if_neg (by simp)]
    unfold direct File.readAhead
    dsimp only
    by_cases hhole : f.i_addr bn.toNat = 0
    · rw [if_pos hhole, if_pos hhole]
      exact ⟨rfl, 0, rfl⟩
    · rw [if_neg hhole, if_neg hhole]
      refine ⟨rfl, ?_⟩
      dsimp only
      split
      · exact ⟨_, rfl⟩
      · exact ⟨0, rfl⟩
  · rw [if_neg hdirect]
    rcases level_path (show 4 ≤ bn by omega) with
      ⟨hnone, hlevel⟩ | ⟨levels, n, hpos, hle, hpath, hlevel⟩
    · rw [hlevel, if_pos hnone]
      exact ⟨rfl, 0, rfl⟩
    · have hrecorded : recorded f bn =
          follow (words f.vol) (digits levels n) (f.i_addr (3 + levels)) := by
        simp only [recorded, hpath]
      rw [hlevel, hpath, hrecorded, if_neg (by simp)]
      dsimp only
      unfold indirect
      have hslot : NADDR - (4 - levels) = 3 + levels := by
        simp only [NADDR]
        omega
      have hlevels : 4 - (4 - levels) = levels := by omega
      rw [hslot, hlevels]
      dsimp only
      by_cases hroot : f.i_addr (3 + levels) = 0
      · rw [if_pos hroot, hroot, follow_null, if_pos rfl]
        exact ⟨rfl, 0, rfl⟩
      · rw [if_neg hroot]
        obtain ⟨hresult, rablock, hfile⟩ := fetch_reads time 0 n hroot
          { f with rablock := 0 }
        exact ⟨hresult, rablock, hfile⟩

theorem File.readAhead_rest (f : File) (i : Nat) :
    (f.readAhead i).vol = f.vol ∧ (f.readAhead i).i_addr = f.i_addr := by
  unfold File.readAhead
  split <;> exact ⟨rfl, rfl⟩

/-- A file with another hint for reading ahead. -/
theorem Sound.of_eq {f f' : File} {free : List Nat} (h : Sound f free) (hvol : f'.vol = f.vol)
    (haddr : f'.i_addr = f.i_addr) : Sound f' free := by
  have hblocks : fileBlocks f' = fileBlocks f := by
    unfold fileBlocks
    rw [hvol, haddr]
  refine ⟨hvol ▸ h.wellFormed, ?_, ?_⟩
  · rw [hblocks]
    exact h.nodup
  · rw [hblocks, hvol]
    exact h.in_range

/-- A call that leaves disk and inode alone. -/
theorem Sound.unchanged {f : File} {r : Result × File} {free : List Nat} {bn : Int}
    (h : Sound f free) (hvol : r.2.vol = f.vol) (haddr : r.2.i_addr = f.i_addr)
    (hresult : recorded f bn ≠ 0 ∧ r.1 = ⟨recorded f bn, none⟩) : Written f bn free r := by
  have hrecorded : ∀ other, recorded r.2 other = recorded f other := by
    intro other
    unfold recorded
    rw [hvol, haddr]
  refine ⟨h.of_eq hvol haddr, fun other _ => hrecorded other, fun _ => hrecorded bn,
    fun _ _ _ _ _ _ => by rw [hvol, haddr], Or.inl ?_⟩
  exact ⟨recorded f bn, hresult.1, hresult.2, hrecorded bn⟩

theorem taken_block {vol : Vol} {b : Nat} {rest : List Nat} (h : WellFormed vol (b :: rest)) :
    b ≠ 0 ∧ b < 2 ^ 32 := by
  obtain ⟨hlow, hhigh⟩ := h.in_range b List.mem_cons_self
  have hpos := h.isize_pos
  exact ⟨by omega, lt_trans hhigh h.fsize_lt⟩

/-- A direct block. -/
theorem direct_writes (clrbuf : Bool) (time : Nat) {bn : Int} {i : Nat} {f : File}
    {free : List Nat} (h : Sound f free) (hpath : path bn = some (i, [])) (hi : i < 4) :
    ∃ rest, Written f bn rest (direct true clrbuf time i { f with rablock := 0 }) := by
  have hheight : height i = 0 := by
    simp only [height]
    omega
  have hrecorded : recorded f bn = f.i_addr i := by
    simp only [recorded, hpath, follow]
  unfold direct
  dsimp only
  by_cases hhole : f.i_addr i = 0
  · rw [if_pos hhole, if_pos rfl]
    unfold File.balloc
    dsimp only
    rcases balloc_taken h.wellFormed clrbuf time with
      ⟨rfl, hnone, hwf', hblock⟩ | ⟨b, rest, rfl, hsome, hwf', hother, -⟩
    · rw [hnone]
      refine ⟨[], h.written [] hpath rfl hwf' (balloc_area clrbuf time f.vol)
        (fun _ _ => rfl) (.refl hblock) (fun b _ _ => congrFun hblock b) (Or.inr ⟨rfl, rfl, ?_⟩)⟩
      simpa only [follow] using hhole
    · rw [hsome]
      dsimp only
      obtain ⟨hvol, haddr⟩ := File.readAhead_rest (File.setAddr
        { f with vol := (balloc clrbuf time f.vol).vol, rablock := 0 } i b) i
      have hslot : (Function.update f.i_addr i b) i = b := Function.update_self ..
      refine ⟨rest, h.written [b] hpath rfl ?_ ?_ ?_ ?_ ?_ ?_⟩
      · rw [hvol]
        exact hwf'
      · rw [hvol]
        exact balloc_area clrbuf time f.vol
      · intro other hne
        rw [haddr]
        exact Function.update_of_ne hne _ _
      · rw [hvol, haddr, hheight]
        show Extended f.vol (balloc clrbuf time f.vol).vol 0 (f.i_addr i)
          (Function.update f.i_addr i b i) [b] []
        rw [hslot, hhole]
        refine ⟨?_, fun other hlength _ hne => ?_, fun hne => absurd (follow_null _) hne⟩
        · rw [blocks_leaf (taken_block h.wellFormed).1, blocks_null]
          exact List.Perm.refl _
        · exact absurd (List.length_eq_zero_iff.mp (Nat.le_zero.mp hlength) ▸ List.nil_prefix) hne
      · intro c _ hc
        rw [hvol]
        exact hother c fun heq => hc (List.mem_singleton.mpr heq)
      · refine Or.inl ⟨b, (taken_block h.wellFormed).1, rfl, ?_⟩
        rw [hvol, haddr]
        exact hslot
  · rw [if_neg hhole]
    obtain ⟨hvol, haddr⟩ := File.readAhead_rest { f with rablock := 0 } i
    refine ⟨free, h.unchanged hvol haddr ⟨?_, ?_⟩⟩
    · rwa [hrecorded]
    · rw [hrecorded]

/-- A block behind indirect blocks. -/
theorem indirect_writes (time : Nat) {bn : Int} {levels n : Nat} {f : File} {free : List Nat}
    (h : Sound f free) (hpath : path bn = some (3 + levels, digits levels n)) (hpos : 0 < levels)
    (hle : levels ≤ 3) :
    ∃ rest, Written f bn rest
      (indirect true time (4 - levels) (8 * levels) n { f with rablock := 0 }) := by
  have hslot : NADDR - (4 - levels) = 3 + levels := by
    simp only [NADDR]
    omega
  have hlevels : 4 - (4 - levels) = levels := by omega
  have hheight : height (3 + levels) = levels := by
    simp only [height]
    omega
  have hlt : 3 + levels < NADDR := by
    simp only [NADDR]
    omega
  have hwf := h.wellFormed
  obtain ⟨hfile, hfree, hapart⟩ := List.nodup_append.mp h.nodup
  unfold indirect
  rw [hslot, hlevels]
  dsimp only
  by_cases hroot : f.i_addr (3 + levels) = 0
  · rw [if_pos hroot, if_pos rfl]
    unfold File.balloc
    dsimp only
    rcases balloc_taken hwf true time with
      ⟨rfl, hnone, hwf', hblock⟩ | ⟨b, rest, rfl, hsome, hwf', hother, hzero⟩
    · rw [hnone]
      refine ⟨[], h.written [] hpath rfl hwf' (balloc_area true time f.vol)
        (fun _ _ => rfl) (.refl hblock) (fun b _ _ => congrFun hblock b) (Or.inr ⟨rfl, rfl, ?_⟩)⟩
      show follow _ _ (f.i_addr (3 + levels)) = 0
      rw [hroot, follow_null]
    · rw [hsome]
      dsimp only
      obtain ⟨hb, -⟩ := taken_block hwf
      obtain ⟨hnew, hrest⟩ := List.nodup_cons.mp hfree
      have hsingle := blocks_cleared NINDIR levels hb fun k _ => hzero rfl k
      obtain ⟨added, last, hfetched⟩ := fetch_extends time 0 n
        (f := File.setAddr { f with vol := (balloc true time f.vol).vol, rablock := 0 }
          (3 + levels) b) hwf' hb (by
        show (blocks NINDIR (words (balloc true time f.vol).vol) levels b ++ rest).Nodup
        rw [hsingle]
        exact List.nodup_cons.mpr ⟨hnew, hrest⟩)
      obtain ⟨heq, hlast, harea, haddr, hext, hframe, hresult⟩ := hfetched
      have hself : (Function.update f.i_addr (3 + levels) b) (3 + levels) = b :=
        Function.update_self ..
      refine ⟨last, h.written (b :: added) hpath (by rw [heq, List.cons_append]) hlast ?_
        ?_ ?_ ?_ ?_⟩
      · rw [harea.1, harea.2]
        exact balloc_area true time f.vol
      · intro other hne
        rw [haddr]
        exact Function.update_of_ne hne _ _
      · rw [hheight, hroot, haddr]
        show Extended _ _ _ _ (Function.update f.i_addr (3 + levels) b (3 + levels)) _ _
        rw [hself]
        exact hext.fresh hb (hzero rfl) f.vol
      · intro c _ hc
        obtain ⟨hcb, hcadded⟩ := not_or.mp (mt List.mem_cons.mpr hc)
        refine (hframe c ?_ hcadded).trans (hother c hcb)
        show c ∉ blocks NINDIR (words (balloc true time f.vol).vol) levels b
        rw [hsingle]
        exact fun hmem => hcb (List.mem_singleton.mp hmem)
      · rw [haddr]
        show (∃ b' : Nat, _ ∧ _ ∧ follow _ _ (Function.update f.i_addr (3 + levels) b
          (3 + levels)) = b') ∨ _ ∧ _ ∧ follow _ _ (Function.update f.i_addr (3 + levels) b
          (3 + levels)) = 0
        rw [hself]
        exact hresult
  · rw [if_neg hroot]
    have htree : ∀ c ∈ blocks NINDIR (words f.vol) levels (f.i_addr (3 + levels)),
        c ∈ fileBlocks f := fun c hc => by
      refine List.mem_flatMap.mpr ⟨3 + levels, List.mem_range.mpr hlt, ?_⟩
      rw [hheight]
      exact hc
    have hnodup := (List.nodup_flatMap.mp hfile).1 (3 + levels) (List.mem_range.mpr hlt)
    rw [hheight] at hnodup
    obtain ⟨added, last, hfetched⟩ := fetch_extends time 0 n
      (f := { f with rablock := 0 }) hwf hroot
      (List.nodup_append.mpr ⟨hnodup, hfree, fun c hc d hd => hapart c (htree c hc) d hd⟩)
    obtain ⟨heq, hlast, harea, haddr, hext, hframe, hresult⟩ := hfetched
    refine ⟨last, h.written added hpath heq hlast harea
      (fun other _ => congrFun haddr other) ?_ ?_ ?_⟩
    · rw [haddr, hheight]
      exact hext
    · rw [hheight]
      exact hframe
    · rw [haddr]
      exact hresult

/-- `bmap` with `B_WRITE` for a block with a place. -/
theorem bmap_writes (clrbuf : Bool) (time : Nat) {bn : Int} {f : File} {free : List Nat}
    (h : Sound f free) (hplace : path bn ≠ none) :
    ∃ rest, Written f bn rest (bmap true clrbuf time bn f) := by
  have hneg : ¬ bn < 0 := fun hneg => hplace (path_none.mpr (Or.inl hneg))
  have hslots : NADDR - 3 = 4 := rfl
  have hwf := h.wellFormed
  obtain ⟨hfile, hfree, hapart⟩ := List.nodup_append.mp h.nodup
  unfold bmap
  dsimp only
  rw [if_neg hneg]
  by_cases hdirect : bn < (NADDR - 3 : Nat)
  · have hpath : path bn = some (bn.toNat, []) := by
      unfold path
      rw [if_neg hneg, if_pos (by omega)]
    rw [if_pos hdirect]
    exact direct_writes clrbuf time h hpath (by omega)
  · rw [if_neg hdirect]
    rcases level_path (show 4 ≤ bn by omega) with
      ⟨hnone, -⟩ | ⟨levels, n, hpos, hle, hpath, hlevel⟩
    · exact absurd hnone hplace
    · rw [hlevel]
      exact indirect_writes time h hpath hpos hle

/-- The search through indirect blocks does not set `EFBIG`. -/
theorem fetch_error (write : Bool) (time bn levels sh nb ra : Nat) (f : File) :
    (fetch write time bn levels sh nb ra f).1.error ≠ some .EFBIG := by
  induction levels generalizing sh nb ra f with
  | zero => simp [fetch]
  | succ levels ih =>
      unfold fetch
      dsimp only
      split
      · split
        · split
          · simp
          · exact ih _ _ _ _
        · simp
      · exact ih _ _ _ _

/-- `EFBIG` is set exactly for the blocks without a place. -/
theorem bmap_efbig (write clrbuf : Bool) (time : Nat) (bn : Int) (f : File) :
    (bmap write clrbuf time bn f).1.error = some .EFBIG ↔ path bn = none := by
  have hslots : NADDR - 3 = 4 := rfl
  unfold bmap
  dsimp only
  by_cases hneg : bn < 0
  · rw [if_pos hneg]
    exact ⟨fun _ => path_none.mpr (Or.inl hneg), fun _ => rfl⟩
  rw [if_neg hneg]
  by_cases hdirect : bn < (NADDR - 3 : Nat)
  · rw [if_pos hdirect]
    have hpath : path bn ≠ none := fun hnone => by
      rcases path_none.mp hnone with hlow | hhigh
      · exact hneg hlow
      · omega
    refine ⟨fun herror => absurd herror ?_, fun hnone => absurd hnone hpath⟩
    unfold direct
    split
    · split
      · split <;> simp
      · simp
    · simp
  · rw [if_neg hdirect]
    rcases level_path (show 4 ≤ bn by omega) with
      ⟨hnone, hlevel⟩ | ⟨levels, n, -, -, hpath, hlevel⟩
    · rw [hlevel]
      exact ⟨fun _ => hnone, fun _ => rfl⟩
    · rw [hlevel, hpath]
      refine ⟨fun herror => absurd herror ?_, fun hnone => by cases hnone⟩
      unfold indirect
      dsimp only
      split
      · split
        · split
          · simp
          · exact fetch_error _ _ _ _ _ _ _ _
        · simp
      · exact fetch_error _ _ _ _ _ _ _ _

/-- For every file `bmap` with `B_READ` returns what is recorded, or -1, and changes nothing but the
hint for reading ahead; `EFBIG` is set exactly outside of the file's range. If no block occurs
twice in the file and the free list, no two logical blocks share a pointer, and `bmap` with `B_WRITE`
keeps every other mapping and returns the block that a read returns from then on, unless it
fails with the free list used up. -/
theorem bmap_faithful (f : File) (clrbuf : Bool) (time : Nat) :
    (∀ bn, (bmap false clrbuf time bn f).1 =
        (if path bn = none then ⟨0, some .EFBIG⟩
          else if recorded f bn = 0 then ⟨-1, none⟩ else ⟨recorded f bn, none⟩) ∧
      ∃ rablock, (bmap false clrbuf time bn f).2 = { f with rablock := rablock }) ∧
    (∀ write bn, (bmap write clrbuf time bn f).1.error = some .EFBIG ↔
      bn < 0 ∨ 4 + 256 + 256 ^ 2 + 256 ^ 3 ≤ bn) ∧
    ∀ free, Sound f free →
      (∀ bn bn' place, slot f bn = some place → slot f bn' = some place → bn = bn') ∧
      ∀ bn, path bn ≠ none → ∃ rest, Sound (bmap true clrbuf time bn f).2 rest ∧
        (∀ other, other ≠ bn →
          recorded (bmap true clrbuf time bn f).2 other = recorded f other) ∧
        ((∃ b : Nat, (bmap true clrbuf time bn f).1 = ⟨b, none⟩ ∧
            (bmap false clrbuf time bn (bmap true clrbuf time bn f).2).1 = ⟨b, none⟩ ∧
            (recorded f bn ≠ 0 → b = recorded f bn)) ∨
          (bmap true clrbuf time bn f).1 = ⟨-1, some .ENOSPC⟩ ∧ rest = [] ∧
            recorded f bn = 0 ∧ recorded (bmap true clrbuf time bn f).2 bn = 0) := by
  refine ⟨fun bn => bmap_reads clrbuf time bn f, fun write bn => ?_, fun free hsound => ⟨?_, ?_⟩⟩
  · rw [bmap_efbig, path_none]
  · intro bn bn' place
    exact slot_injective (List.nodup_append.mp hsound.nodup).1
  · intro bn hplace
    obtain ⟨rest, hsound', hothers, hkept, -, hresult⟩ := bmap_writes clrbuf time hsound hplace
    refine ⟨rest, hsound', hothers, ?_⟩
    rcases hresult with ⟨b, hb, hr, hrecorded⟩ | ⟨hr, hrest, hzero⟩
    · refine Or.inl ⟨b, hr, ?_, fun hne => hrecorded.symm.trans (hkept hne)⟩
      rw [(bmap_reads clrbuf time bn _).1, hrecorded, if_neg hplace, if_neg hb]
    · refine Or.inr ⟨hr, hrest, ?_, hzero⟩
      by_contra hne
      exact hne ((hkept hne).symm.trans hzero)

/-- An empty file in a file system with the two free blocks 5 and 7. -/
def emptyFile : File := ⟨smallVol, fun _ => 0, false, 0⟩

theorem empty_file_sound : Sound emptyFile [5, 7] := by
  have hblocks : fileBlocks emptyFile = [] := by
    refine List.flatMap_eq_nil_iff.mpr fun a _ => ?_
    exact blocks_null _
  refine ⟨small_vol_well_formed, ?_, ?_⟩
  · rw [hblocks]
    decide
  · rw [hblocks]
    simp

/-- The two blocks are used for logical block 4 and the indirect block on the way to it. -/
theorem bmap_faithful_empty_file :
    (∀ other, other ≠ 4 →
      recorded (bmap true true 0 4 emptyFile).2 other = recorded emptyFile other) ∧
      (bmap true true 0 4 emptyFile).1 = ⟨7, none⟩ := by
  obtain ⟨rest, -, hothers, -⟩ := ((bmap_faithful emptyFile true 0).2.2 _ empty_file_sound).2 4
    (by decide)
  exact ⟨hothers, by decide +kernel⟩

/-- An empty file in a file system without free blocks. -/
def noSpaceFile : File := ⟨fullVol, fun _ => 0, false, 0⟩

/-- A file whose indirect block 3 names block 4 twice, in a file system with a free block 7. -/
def twiceFile : File where
  vol :=
    { smallVol with
      fs := ⟨2, 10, ⟨2, fun slot => if slot = 1 then 7 else 0⟩, 0, 0, 0, 1⟩
      block := fun b => if b = 3 then ⟨4, fun slot => if slot = 0 then 4 else 0⟩ else ⟨0, fun _ => 0⟩ }
  i_addr a := if a = 5 then 3 else 0
  i_flag := false
  rablock := 0

/-- Without a free block `B_WRITE` returns none; and when a block occurs twice in a file, a write to
one logical block maps another one. -/
theorem bmap_fails :
    (bmap true false 0 0 noSpaceFile).1 = ⟨-1, some .ENOSPC⟩ ∧
      recorded twiceFile 516 = 0 ∧
      recorded (bmap true false 0 260 twiceFile).2 516 = 7 ∧
      slot twiceFile 260 = slot twiceFile 516 ∧ slot twiceFile 260 ≠ none := by
  decide +kernel

end DiscoBsd.Bmap
