import DiscoBsd.Dir.Namei
import DiscoBsd.Lib.Assoc

/-!
# Removing, rewriting and appending entries

Each modification replaces a run of entries by another one of the same length and leaves the
other bytes alone: `Layout.replace`. What the run's names are before and after says what
becomes of the finite map.
-/

namespace DiscoBsd.Dir

open Lib

variable {d d' : Directory} {m m' : Bytes} {p : Nat} {es before after run run' : List Entry}
  {e : Entry} {name : Name} {dent : Bytes} {s : Search}

/-! ## Pairs -/

@[simp] theorem pairs_nil : pairs [] = [] := rfl

@[simp] theorem pairs_append (as bs : List Entry) : pairs (as ++ bs) = pairs as ++ pairs bs := by
  simp [pairs]

@[simp] theorem pairs_live (h : e.dIno ≠ 0) (es : List Entry) :
    pairs (e :: es) = (e.dName, e.dIno) :: pairs es := by
  simp [pairs, h]

@[simp] theorem pairs_free (h : e.dIno = 0) (es : List Entry) : pairs (e :: es) = pairs es := by
  simp [pairs, h]

@[simp] theorem pairs_resize (e : Entry) (reclen : Nat) (es : List Entry) :
    pairs (e.resize reclen :: es) = pairs (e :: es) := by
  by_cases hlive : e.dIno = 0
  · rw [pairs_free hlive, pairs_free (by rwa [resize_dIno])]
  · rw [pairs_live hlive, pairs_live (by rwa [resize_dIno]), resize_dIno, resize_dName]

theorem pairs_eq_nil (h : ∀ e ∈ es, e.dIno = 0) : pairs es = [] := by
  simp only [pairs, List.map_eq_nil_iff, List.filter_eq_nil_iff]
  intro e he
  simp [h e he]

theorem not_mem_pairs (h : ∀ e ∈ es, ¬ e.Is name) : name ∉ (pairs es).map Prod.fst := by
  intro hin
  simp only [pairs, List.map_map, List.mem_map, List.mem_filter] at hin
  obtain ⟨e, ⟨he, hlive⟩, hname⟩ := hin
  exact h e he ⟨by simpa using hlive, hname⟩

theorem Layout.contents_eq (h : Layout d es) : d.contents = fun name => (pairs es).lookup name := by
  funext name
  rw [Directory.contents, h.entries_eq]

/-! ## A run of entries is replaced -/

theorem Laid.replace (h : Laid m p (before ++ run ++ after))
    (hrun : Laid m' (p + total before) run') (htotal : total run' = total run)
    (hbytes : ∀ a, a < p + total (before ++ run ++ after) →
      a < p + total before ∨ p + total before + total run ≤ a → m' a = m a) :
    Laid m' p (before ++ run' ++ after) := by
  rw [laid_append, laid_append] at h ⊢
  simp only [total_append, htotal] at h hbytes ⊢
  refine ⟨⟨h.1.1.congr fun a _ ha => hbytes a (by omega) (by omega), hrun⟩, ?_⟩
  exact h.2.congr fun a ha ha' => hbytes a (by omega) (by omega)

theorem Layout.replace (h : Layout d (before ++ run ++ after))
    (hrun : Laid d'.bytes (total before) run') (htotal : total run' = total run)
    (hbytes : ∀ a, a < d.iSize → a < total before ∨ total before + total run ≤ a →
      d'.bytes a = d.bytes a)
    (hsize : d'.iSize = d.iSize)
    (hnames : ((pairs (before ++ run' ++ after)).map Prod.fst).Nodup) :
    Layout d' (before ++ run' ++ after) where
  laid := by
    have hlaid := h.laid
    refine hlaid.replace (by rwa [Nat.zero_add]) htotal ?_
    simp only [Nat.zero_add]
    rw [h.size]
    exact hbytes
  size := by
    rw [hsize, ← h.size]
    simp only [total_append, htotal]
  whole := by rw [hsize]; exact h.whole
  names := hnames

/-! ## One entry is written over -/

/-- What `namei` leaves of an entry that it found. -/
theorem entryAt_foundEntry (hentry : entryAt m p = e) (hname : e.dName = name) :
    entryAt (s.foundEntry e (setName dent name)).niDent 0 = e := by
  have hino : e.dIno < 2 ^ 32 := hentry ▸ get32_lt m p
  have hreclen : e.dReclen < 2 ^ 16 := hentry ▸ dReclen_lt m p
  have hlength : name.length < 2 ^ 16 := by
    rw [← hname, ← hentry]
    exact length_dName_lt m p
  subst hname
  show entryAt (setReclen (setIno (setName dent e.dName) 0 e.dIno) 0 e.dReclen) 0 = e
  rw [entryAt_setReclen _ _ hreclen, entryAt_setIno _ _ hino]
  simp only [Entry.resize, Entry.relink, dName_setName dent hlength]

theorem rdwri_outside (buf : Bytes) {len offset a : Nat} (ha : a < d.iSize)
    (hout : a < offset ∨ offset + len ≤ a) : (d.rdwri buf len offset).bytes a = d.bytes a := by
  show bcopy buf 0 (fun a => if a < d.iSize then d.bytes a else 0) offset len a = d.bytes a
  rw [bcopy_outside _ _ _ _ hout, if_pos ha]

/-- The entry is written over by one of the same name and length. -/
theorem Layout.overwrite (h : Layout d (before ++ e :: after)) {ino : Nat} (hino : ino < 2 ^ 32)
    (hdent : entryAt dent 0 = e)
    (hnames : ((pairs (before ++ [e.relink ino] ++ after)).map Prod.fst).Nodup) :
    Layout (d.rdwri (setIno dent 0 ino) (entryAt (setIno dent 0 ino) 0).dirsiz (total before))
      (before ++ [e.relink ino] ++ after) := by
  have hlaid := h.laid
  rw [laid_append, Nat.zero_add] at hlaid
  obtain ⟨-, hentry, hfits, -⟩ := hlaid
  have hsize := hfits.size
  have htotal := h.size
  simp only [total_append, total_cons] at htotal
  have hnew : entryAt (setIno dent 0 ino) 0 = e.relink ino := by
    rw [entryAt_setIno _ _ hino, hdent]
  have hdirsiz : (entryAt (setIno dent 0 ino) 0).dirsiz = e.dirsiz := by
    rw [hnew]
    rfl
  rw [hdirsiz]
  have hparts : Layout d (before ++ [e] ++ after) := by simpa using h
  refine hparts.replace ⟨?_, ⟨hsize, hfits.words, hfits.block⟩, trivial⟩ rfl ?_ ?_ hnames
  · show entryAt (bcopy (setIno dent 0 ino) 0 _ (total before) e.dirsiz) (total before) = _
    rw [entryAt_bcopy _ _ _ _ hdirsiz.le, hnew]
  · intro a ha hout
    simp only [total_cons, total_nil] at hout
    exact rdwri_outside _ ha (by omega)
  · show max d.iSize (total before + e.dirsiz) = d.iSize
    omega

/-! ## The finite map -/

theorem pairs_perm (his : e.Is name) (before after : List Entry) :
    (pairs (before ++ e :: after)).Perm ((name, e.dIno) :: (pairs before ++ pairs after)) := by
  rw [pairs_append, pairs_live his.1, his.2]
  exact List.perm_middle

theorem Layout.contents_erase (h : Layout d (before ++ e :: after)) (his : e.Is name)
    (hd' : Layout d' es) (hpairs : pairs es = pairs before ++ pairs after) :
    d'.contents = Function.update d.contents name none := by
  rw [hd'.contents_eq, h.contents_eq, hpairs]
  exact lookup_erase (pairs_perm his before after) h.names

theorem Layout.names_erase (h : Layout d (before ++ e :: after)) (his : e.Is name) :
    ((pairs before ++ pairs after).map Prod.fst).Nodup :=
  ((nodup_of_perm_cons (pairs_perm his before after)).mp h.names).2

theorem Layout.contents_insert (h : Layout d es) {ino : Nat} {es' : List Entry}
    (hd' : Layout d' es') (hpairs : (pairs es').Perm ((name, ino) :: pairs es)) :
    d'.contents = Function.update d.contents name (some ino) := by
  rw [hd'.contents_eq, h.contents_eq]
  exact lookup_insert hpairs hd'.names

/-! ## `dirrewrite` and `dirremove` -/

/-- The entry of the name gets the new inode. -/
theorem Layout.dirrewrite (h : Layout d (before ++ e :: after)) (his : e.Is name)
    (hoffset : s.niOffset = total before) {ino : Nat} (hpos : ino ≠ 0) (hino : ino < 2 ^ 32) :
    let d' := d.dirrewrite ino (s.foundEntry e (setName dent name))
    d'.Valid ∧ d'.contents = Function.update d.contents name (some ino) := by
  have hlaid := h.laid
  rw [laid_append, Nat.zero_add] at hlaid
  obtain ⟨-, hentry, -, -⟩ := hlaid
  have hnew : (e.relink ino).Is name := ⟨hpos, his.2⟩
  have hperm := pairs_perm hnew before after
  have hperm' := pairs_perm his before after
  have hnames : ((pairs (before ++ [e.relink ino] ++ after)).map Prod.fst).Nodup := by
    rw [List.append_assoc, List.singleton_append, nodup_of_perm_cons hperm,
      ← nodup_of_perm_cons hperm']
    exact h.names
  have hd' : Layout (d.dirrewrite ino (s.foundEntry e (setName dent name)))
      (before ++ [e.relink ino] ++ after) := by
    show Layout (d.rdwri _ _ s.niOffset) _
    rw [hoffset]
    exact h.overwrite hino (entryAt_foundEntry hentry his.2) hnames
  refine ⟨hd'.valid, ?_⟩
  rw [hd'.contents_eq, h.contents_eq]
  rw [List.append_assoc, List.singleton_append] at hnames ⊢
  rw [lookup_insert hperm hnames, lookup_erase hperm' h.names, Function.update_idem, relink_dIno]

/-- The first entry of a block is marked as free. -/
theorem Layout.dirremove_first (h : Layout d (before ++ e :: after)) (his : e.Is name)
    (hoffset : s.niOffset = total before) (hblock : total before % DIRBLKSIZ = 0) :
    let d' := d.dirremove (s.foundEntry e (setName dent name))
    d'.Valid ∧ d'.contents = Function.update d.contents name none := by
  have hlaid := h.laid
  rw [laid_append, Nat.zero_add] at hlaid
  obtain ⟨-, hentry, -, -⟩ := hlaid
  have hpairs : pairs (before ++ [e.relink 0] ++ after) = pairs before ++ pairs after := by
    rw [List.append_assoc, pairs_append, List.singleton_append, pairs_free (relink_dIno e 0)]
  have hnames : ((pairs (before ++ [e.relink 0] ++ after)).map Prod.fst).Nodup := by
    rw [hpairs]
    exact h.names_erase his
  have hd' : Layout (d.dirremove (s.foundEntry e (setName dent name)))
      (before ++ [e.relink 0] ++ after) := by
    have hcount : (s.foundEntry e (setName dent name)).niCount = 0 := by
      show (if s.niOffset % DIRBLKSIZ = 0 then 0 else s.niOffset - s.prevoff) = 0
      rw [hoffset, if_pos hblock]
    unfold Directory.dirremove
    rw [if_pos hcount]
    show Layout (d.rdwri _ _ s.niOffset) _
    rw [hoffset]
    exact h.overwrite (by omega) (entryAt_foundEntry hentry his.2) hnames
  exact ⟨hd'.valid, h.contents_erase his hd' hpairs⟩

/-- The space of an entry goes to the one before it, in the same block. -/
theorem Laid.merge {front : List Entry} {e' : Entry} (h : Laid m 0 (front ++ [e', e] ++ after))
    (hblock : total (front ++ [e']) % DIRBLKSIZ ≠ 0)
    (hmerged : entryAt m' (total front) = e'.resize (e'.dReclen + e.dReclen))
    (hbytes : ∀ a, a < total front ∨ total front + 8 ≤ a → m' a = m a) :
    Laid m' 0 (front ++ [e'.resize (e'.dReclen + e.dReclen)] ++ after) := by
  have hlaid := h
  rw [laid_append, laid_append, Nat.zero_add] at hlaid
  obtain ⟨⟨-, -, hfits', -, hfits, -⟩, -⟩ := hlaid
  have hsize' := hfits'.size
  have hend' := hfits'.block
  have hend := hfits.block
  have hdirsiz := lt_dirsiz e'
  simp only [total_append, total_cons, total_nil, Nat.add_zero, DIRBLKSIZ] at hblock hend hend'
  refine h.replace ⟨?_, ⟨?_, ?_, ?_⟩, trivial⟩ (by simp) ?_
  · rw [Nat.zero_add, hmerged]
  · show e'.dirsiz ≤ e'.dReclen + e.dReclen
    omega
  · show (e'.dReclen + e.dReclen) % 4 = 0
    have hwords' := hfits'.words
    have hwords := hfits.words
    omega
  · show (0 + total front) % DIRBLKSIZ + (e'.dReclen + e.dReclen) ≤ DIRBLKSIZ
    simp only [DIRBLKSIZ]
    omega
  · intro a _ hout
    simp only [total_cons, total_nil] at hout
    exact hbytes a (by omega)

/-- Two entries of one block are together no longer than the block. -/
theorem Laid.merged_le {front : List Entry} {e' : Entry}
    (h : Laid m 0 (front ++ [e', e] ++ after)) (hblock : total (front ++ [e']) % DIRBLKSIZ ≠ 0) :
    e'.dReclen + e.dReclen ≤ DIRBLKSIZ := by
  rw [laid_append, laid_append, Nat.zero_add] at h
  obtain ⟨⟨-, -, hfits', -, hfits, -⟩, -⟩ := h
  have hend' := hfits'.block
  have hend := hfits.block
  simp only [total_append, total_cons, total_nil, Nat.add_zero, DIRBLKSIZ] at hblock hend hend' ⊢
  omega

theorem Layout.merge {front : List Entry} {e' : Entry}
    (h : Layout d (front ++ [e', e] ++ after)) (hblock : total (front ++ [e']) % DIRBLKSIZ ≠ 0)
    (hnames : ((pairs (front ++ [e'.resize (e'.dReclen + e.dReclen)] ++ after)).map
      Prod.fst).Nodup) :
    Layout { d with bytes := setReclen d.bytes (total front) (e'.dReclen + e.dReclen) }
      (front ++ [e'.resize (e'.dReclen + e.dReclen)] ++ after) := by
  have hle := h.laid.merged_le hblock
  have hlaid := h.laid
  rw [laid_append, laid_append, Nat.zero_add] at hlaid
  obtain ⟨⟨-, hentry', -⟩, -⟩ := hlaid
  simp only [DIRBLKSIZ] at hle
  refine ⟨h.laid.merge hblock ?_ fun a ha => put16_outside _ (by omega), ?_, h.whole, hnames⟩
  · rw [entryAt_setReclen _ _ (by omega), hentry']
  · show _ = d.iSize
    rw [← h.size]
    simp [Nat.add_assoc]

/-- The entry of the name is gone. -/
theorem Layout.dirremove (h : Layout d (before ++ e :: after)) (his : e.Is name)
    (hoffset : s.niOffset = total before)
    (hprevoff : ∀ front e', before = front ++ [e'] → s.prevoff = total front) :
    let d' := d.dirremove (s.foundEntry e (setName dent name))
    d'.Valid ∧ d'.contents = Function.update d.contents name none := by
  by_cases hblock : total before % DIRBLKSIZ = 0
  · exact h.dirremove_first his hoffset hblock
  · rcases List.eq_nil_or_concat before with rfl | ⟨front, e', rfl⟩
    · exact absurd (Nat.zero_mod _) hblock
    · rw [List.concat_eq_append] at h hoffset hblock hprevoff
      have hprev := hprevoff front e' rfl
      have hlaid := h.laid
      rw [laid_append, laid_append, Nat.zero_add] at hlaid
      obtain ⟨⟨-, hentry', hfits', -⟩, hentry, -, -⟩ := hlaid
      have hpos := hfits'.pos
      have hpairs : pairs (front ++ [e'.resize (e'.dReclen + e.dReclen)] ++ after) =
          pairs (front ++ [e']) ++ pairs after := by
        rw [← pairs_append, List.append_assoc, List.append_assoc, pairs_append, pairs_append front,
          List.singleton_append, pairs_resize, List.singleton_append]
      have hparts : Layout d (front ++ [e', e] ++ after) := by simpa using h
      have hd' : Layout (d.dirremove (s.foundEntry e (setName dent name)))
          (front ++ [e'.resize (e'.dReclen + e.dReclen)] ++ after) := by
        have hcount : (s.foundEntry e (setName dent name)).niCount = e'.dReclen := by
          show (if s.niOffset % DIRBLKSIZ = 0 then 0 else s.niOffset - s.prevoff) = e'.dReclen
          rw [hoffset, if_neg hblock, hprev, total_append, total_cons, total_nil]
          omega
        have hep : (s.foundEntry e (setName dent name)).niOffset - e'.dReclen = total front := by
          show s.niOffset - e'.dReclen = total front
          rw [hoffset, total_append, total_cons, total_nil]
          omega
        unfold Directory.dirremove
        rw [if_neg (by omega)]
        simp only [hcount, hep, hentry', entryAt_foundEntry hentry his.2]
        exact hparts.merge hblock (by rw [hpairs]; exact h.names_erase his)
      exact ⟨hd'.valid, h.contents_erase his hd' hpairs⟩

end DiscoBsd.Dir
