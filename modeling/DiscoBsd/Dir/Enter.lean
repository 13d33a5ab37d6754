import DiscoBsd.Dir.Modify

/-!
# Entering a name

The compaction of `direnter` moves the entries in use of a slot together, each trimmed to what
its name needs, and leaves all the space behind them. `Compacting` is what holds at the head of
its loop, `Trimmed` what holds once the entry at `ep` is complete; what is left is then exactly
what the entries of the slot had to spare, so that the panics cannot happen.
-/

namespace DiscoBsd.Dir

open Lib

variable {d : Directory} {m dent : Bytes} {dirbuf niCount needed ino : Nat}
  {es before run after done todo front : List Entry} {e last nep : Entry} {c : Compact} {name : Name}

/-! ## Trimmed entries -/

/-- The entry without anything to spare. -/
def Entry.trimmed (e : Entry) : Entry := e.resize e.dirsiz

/-- The entries in use, trimmed. -/
def trim (es : List Entry) : List Entry := (es.filter fun e => e.dIno ≠ 0).map Entry.trimmed

@[simp] theorem trim_append (as bs : List Entry) : trim (as ++ bs) = trim as ++ trim bs := by
  simp [trim]

@[simp] theorem trim_live (h : e.dIno ≠ 0) : trim [e] = [e.trimmed] := by
  simp [trim, h]

@[simp] theorem trim_free (h : e.dIno = 0) : trim [e] = [] := by
  simp [trim, h]

theorem pairs_trim (es : List Entry) : pairs (trim es) = pairs es := by
  induction es with
  | nil => rfl
  | cons e es ih =>
      rw [← List.singleton_append, trim_append, pairs_append, pairs_append, ih]
      by_cases hlive : e.dIno = 0
      · rw [trim_free hlive, pairs_free hlive]
      · rw [trim_live hlive, Entry.trimmed, pairs_resize]

/-- What is trimmed off is what the entries have to spare. -/
theorem Laid.spares_add_trim {p : Nat} (h : Laid m p es) :
    spares es + total (trim es) = total es := by
  induction es generalizing p with
  | nil => rfl
  | cons e es ih =>
      obtain ⟨-, hfits, hrest⟩ := h
      have hsize := hfits.size
      have htail := ih hrest
      rw [← List.singleton_append, trim_append, spares_append, total_append, total_append]
      by_cases hlive : e.dIno = 0
      · simp only [trim_free hlive, spares_cons, spares_nil, total_cons, total_nil, Entry.spare,
          hlive]
        simp only [ne_eq, not_true_eq_false, if_false]
        omega
      · simp only [trim_live hlive, spares_cons, spares_nil, total_cons, total_nil, Entry.spare,
          Entry.trimmed, resize_dReclen]
        rw [if_pos hlive]
        omega

/-! ## The compaction -/

/-- What holds at the head of the loop: `front` is compacted, and `last` stands at `ep`. -/
structure Compacting (m : Bytes) (dirbuf : Nat) (front : List Entry) (last : Entry) (c : Compact) :
    Prop where
  laid : Laid c.bytes dirbuf (trim front)
  ep : c.ep = dirbuf + total (trim front)
  ino : (entryAt c.bytes c.ep).dIno = last.dIno
  name : (entryAt c.bytes c.ep).dName = last.dName
  dsize : c.dsize = last.dirsiz
  space : (c.ep : Int) + c.dsize + c.spacefree = dirbuf + c.loc
  nonneg : 0 ≤ c.spacefree
  loc : c.loc = total (front ++ [last])
  outside : ∀ a, a < dirbuf ∨ dirbuf + c.loc ≤ a → c.bytes a = m a

/-- What holds when the entry at `ep` is complete: the space is between `ep` and `loc`. -/
structure Trimmed (m : Bytes) (dirbuf : Nat) (done : List Entry) (c : Compact) : Prop where
  laid : Laid c.bytes dirbuf (trim done)
  ep : c.ep = dirbuf + total (trim done)
  space : (c.ep : Int) + c.spacefree = dirbuf + c.loc
  nonneg : 0 ≤ c.spacefree
  loc : c.loc = total done
  outside : ∀ a, a < dirbuf ∨ dirbuf + c.loc ≤ a → c.bytes a = m a

theorem Compacting.start (h : Laid m dirbuf (last :: todo)) :
    Compacting m dirbuf [] last (.start m dirbuf) := by
  obtain ⟨hentry, hfits, -⟩ := h
  have hsize := hfits.size
  unfold Compact.start
  simp only [hentry]
  refine ⟨trivial, by simp [trim], ?_, ?_, rfl, ?_, ?_, by simp, fun _ _ => rfl⟩
  · simp only [hentry]
  · simp only [hentry]
  · simp only
    omega
  · simp only
    omega

/-- The entry at `ep` is trimmed when it is in use, and given up when it is not. -/
theorem Compacting.trim (h : Compacting m dirbuf front last c)
    (hblock : dirbuf % DIRBLKSIZ + c.loc ≤ DIRBLKSIZ) :
    Trimmed m dirbuf (front ++ [last]) c.trim := by
  have hep := h.ep
  have hspace := h.space
  have hnonneg := h.nonneg
  have hdsize := h.dsize
  have hmod := dirsiz_mod last
  have hlt := lt_dirsiz last
  simp only [DIRBLKSIZ] at hblock
  unfold Compact.trim
  rw [h.ino]
  by_cases hlive : last.dIno = 0
  · rw [if_neg (not_not.mpr hlive)]
    have htrim : Dir.trim (front ++ [last]) = Dir.trim front := by simp [hlive]
    refine ⟨by rw [htrim]; exact h.laid, by rw [htrim]; exact hep, ?_, ?_, h.loc, h.outside⟩
    · show (c.ep : Int) + (c.spacefree + c.dsize) = dirbuf + c.loc
      omega
    · show 0 ≤ c.spacefree + c.dsize
      omega
  · rw [if_pos hlive]
    have htrim : Dir.trim (front ++ [last]) = Dir.trim front ++ [last.trimmed] := by simp [hlive]
    have hdirsiz : last.trimmed.dReclen = c.dsize := hdsize.symm
    refine ⟨?_, ?_, ?_, h.nonneg, h.loc, ?_⟩
    · rw [htrim, laid_append]
      refine ⟨h.laid.congr fun a _ ha => put16_outside _ (by omega), ?_, ⟨?_, ?_, ?_⟩, trivial⟩
      · show entryAt (setReclen c.bytes c.ep c.dsize) _ = _
        rw [← hep, entryAt_setReclen _ _ (by omega), hdsize]
        exact Entry.ext h.ino rfl h.name
      · exact le_refl last.dirsiz
      · exact hmod
      · rw [hdirsiz, ← hep]
        simp only [DIRBLKSIZ]
        omega
    · show c.ep + c.dsize = _
      rw [htrim, total_append, total_cons, total_nil, hdirsiz]
      omega
    · show ((c.ep + c.dsize : Nat) : Int) + c.spacefree = dirbuf + c.loc
      omega
    · intro a ha
      show setReclen c.bytes c.ep c.dsize a = m a
      have hout : setReclen c.bytes c.ep c.dsize a = c.bytes a := put16_outside _ (by
        simp only at ha
        omega)
      rw [hout, h.outside a ha]

/-- The next entry slides down. -/
theorem Trimmed.slide (h : Trimmed m dirbuf done c) (hlaid : Laid m dirbuf (done ++ nep :: todo)) :
    Compacting m dirbuf done nep (c.slide dirbuf) := by
  have hep := h.ep
  have hspace := h.space
  have hnonneg := h.nonneg
  rw [laid_append, ← h.loc] at hlaid
  obtain ⟨-, hentry, hfits, -⟩ := hlaid
  have hsize := hfits.size
  have hnep : entryAt c.bytes (dirbuf + c.loc) = nep := by
    rw [← hentry]
    symm
    apply entryAt_congr
    intro i _
    exact (h.outside _ (by omega)).symm
  have hcopied : entryAt (bcopy c.bytes (dirbuf + c.loc) c.bytes c.ep nep.dirsiz) c.ep = nep := by
    rw [entryAt_bcopy _ _ _ _ (by rw [hnep]), hnep]
  unfold Compact.slide
  simp only [hnep]
  refine ⟨?_, hep, ?_, ?_, rfl, ?_, ?_, ?_, ?_⟩
  · exact h.laid.congr fun a _ ha => bcopy_outside _ _ _ _ (by omega)
  · simp only [hcopied]
  · simp only [hcopied]
  · simp only
    omega
  · simp only
    omega
  · simp [h.loc]
  · intro a ha
    simp only at ha
    simp only
    rw [bcopy_outside _ _ _ _ (by omega)]
    exact h.outside a (by omega)

/-- The loop compacts the whole slot. -/
theorem Compacting.loop {fuel : Nat} (h : Compacting m dirbuf front last c)
    (hlaid : Laid m dirbuf (front ++ [last] ++ todo)) (hcount : total (front ++ [last] ++ todo) = niCount)
    (hblock : dirbuf % DIRBLKSIZ + niCount ≤ DIRBLKSIZ) (hfuel : total todo < fuel) :
    ∃ front' last' c', compactLoop dirbuf niCount fuel c = some c' ∧
      front ++ [last] ++ todo = front' ++ [last'] ∧ Compacting m dirbuf front' last' c' := by
  induction todo generalizing front last c fuel with
  | nil =>
      obtain ⟨fuel, rfl⟩ : ∃ n, fuel = n + 1 := ⟨fuel - 1, by omega⟩
      rw [List.append_nil] at hcount ⊢
      have hloc := h.loc
      rw [compactLoop, if_neg (by omega)]
      exact ⟨front, last, c, rfl, rfl, h⟩
  | cons nep todo ih =>
      obtain ⟨fuel, rfl⟩ : ∃ n, fuel = n + 1 := ⟨fuel - 1, by omega⟩
      have hloc := h.loc
      have hrest := (laid_append.mp hlaid).2
      obtain ⟨-, hfits, -⟩ := hrest
      have hpos := hfits.pos
      rw [total_append, total_cons] at hcount
      rw [total_cons] at hfuel
      rw [compactLoop, if_pos (by omega)]
      have hnext := (h.trim (by omega)).slide hlaid
      have hsame : front ++ [last] ++ nep :: todo = (front ++ [last]) ++ [nep] ++ todo := by simp
      rw [hsame] at hlaid ⊢
      refine ih hnext hlaid ?_ (by omega)
      simp only [total_append, total_cons, total_nil] at hcount ⊢
      omega

/-! ## The new entry -/

theorem place_eq (c : Compact) (dent : Bytes) (size : Nat) :
    c.place dent size = if c.trim.spacefree < size then none
      else some (bcopy (setReclen dent 0 c.trim.spacefree.toNat) 0 c.trim.bytes c.trim.ep size) := by
  unfold Compact.place Compact.trim
  by_cases hlive : (entryAt c.bytes c.ep).dIno = 0
  · simp only [hlive, ne_eq, not_true_eq_false, if_true, if_false]
  · simp only [hlive, ne_eq, not_false_eq_true, if_true, if_false]

/-- The new entry gets all the space of the slot. -/
theorem Trimmed.place (h : Trimmed m dirbuf run c) (hlaid : Laid m dirbuf run)
    (hblock : dirbuf % DIRBLKSIZ + total run ≤ DIRBLKSIZ)
    (hneeded : (entryAt dent 0).dirsiz ≤ spares run) :
    let m' := bcopy (setReclen dent 0 c.spacefree.toNat) 0 c.bytes c.ep (entryAt dent 0).dirsiz
    let new : Entry := (entryAt dent 0).resize (spares run)
    c.spacefree = spares run ∧ Laid m' dirbuf (trim run ++ [new]) ∧
      total (trim run ++ [new]) = total run ∧
      ∀ a, a < dirbuf ∨ dirbuf + total run ≤ a → m' a = m a := by
  intro m' new
  have hep := h.ep
  have hspace := h.space
  have htrim := hlaid.spares_add_trim
  have hloc := h.loc
  have hfree : c.spacefree = spares run := by omega
  have hreclen : c.spacefree.toNat = spares run := by omega
  simp only [DIRBLKSIZ] at hblock
  have hnew : entryAt (setReclen dent 0 (spares run)) 0 = new := entryAt_setReclen _ _ (by omega)
  refine ⟨hfree, ?_, ?_, ?_⟩
  · rw [laid_append]
    refine ⟨h.laid.congr fun a _ ha => bcopy_outside _ _ _ _ (by omega), ?_, ⟨hneeded, ?_, ?_⟩,
      trivial⟩
    · show entryAt (bcopy (setReclen dent 0 c.spacefree.toNat) 0 c.bytes c.ep _) _ = new
      rw [hreclen, ← hep, entryAt_bcopy _ _ _ _ (by rw [hnew]; exact le_refl _), hnew]
    · show spares run % 4 = 0
      have hmod := hlaid.total_mod
      have hmod' := h.laid.total_mod
      omega
    · show (dirbuf + total (trim run)) % DIRBLKSIZ + spares run ≤ DIRBLKSIZ
      simp only [DIRBLKSIZ]
      omega
  · simp only [total_append, total_cons, total_nil]
    show total (trim run) + (spares run + 0) = total run
    omega
  · intro a ha
    show bcopy _ 0 c.bytes c.ep _ a = m a
    rw [bcopy_outside _ _ _ _ (by omega)]
    exact h.outside a (by omega)

/-! ## The truncation -/

/-- Free entries at the end may go. -/
theorem Layout.itrunc {back : List Entry} {length : Nat} (h : Layout d (front ++ back))
    (hfree : ∀ e ∈ back, e.dIno = 0) (hlength : total front = length)
    (hblock : length % DIRBLKSIZ = 0) : Layout (d.itrunc length) front where
  laid := (laid_append.mp h.laid).1
  size := hlength
  whole := hblock
  names := by
    have hnames := h.names
    rwa [pairs_append, pairs_eq_nil hfree, List.append_nil] at hnames

/-- What lies behind the end offset that `namei` remembered is free. -/
theorem free_behind {fresh useful rest front back : List Entry} {endoff : Nat}
    (huseful : before ++ run ++ after = useful ++ rest) (hrest : ∀ e ∈ rest, e.dIno = 0)
    (hpos : ∀ e ∈ before ++ run ++ after, 0 < e.dReclen)
    (hpos' : ∀ e ∈ before ++ fresh ++ after, 0 < e.dReclen)
    (hfresh : total fresh = total run) (hend : total useful ≤ endoff)
    (hslot : total before + total run ≤ endoff)
    (hsplit : before ++ fresh ++ after = front ++ back) (hfront : total front = endoff) :
    ∀ e ∈ back, e.dIno = 0 := by
  obtain ⟨between, hbetween, hafter⟩ := append_of_total_le
    (fun e he => hpos' e (by simp only [List.mem_append] at he ⊢; tauto)) hsplit
    (by rw [total_append]; omega)
  -- the same entries, seen from the old directory
  have hold : useful ++ rest = (before ++ run ++ between) ++ back := by
    rw [← huseful, hafter]
    simp
  have htotal : total useful ≤ total (before ++ run ++ between) := by
    rw [hbetween] at hfront
    simp only [total_append] at hfront ⊢
    omega
  obtain ⟨cs, -, hcs⟩ := append_of_total_le
    (fun e he => hpos e (by rw [huseful]; simp [he])) hold htotal
  intro e he
  exact hrest e (by rw [hcs]; simp [he])

/-! ## `direnter` -/

theorem entryAt_newDent (dent : Bytes) (hname : name.length ≤ MAXNAMLEN) (hino : ino < 2 ^ 32) :
    (entryAt (setIno (setName dent name) 0 ino) 0).dIno = ino ∧
      (entryAt (setIno (setName dent name) 0 ino) 0).dName = name := by
  simp only [MAXNAMLEN] at hname
  rw [entryAt_setIno _ _ hino]
  exact ⟨rfl, dName_setName dent (by omega)⟩

theorem Layout.names_insert (h : Layout d es) (hnone : ∀ e ∈ es, ¬ e.Is name) {es' : List Entry}
    (hpairs : (pairs es').Perm ((name, ino) :: pairs es)) : ((pairs es').map Prod.fst).Nodup :=
  (nodup_of_perm_cons hpairs).mpr ⟨not_mem_pairs hnone, h.names⟩

/-- The new entry in a fresh block at the end of the directory. -/
theorem Layout.direnter_newblk (h : Layout d es) (hnone : ∀ e ∈ es, ¬ e.Is name)
    (hname : name.length ≤ MAXNAMLEN) (hpos : ino ≠ 0) (hino : ino < 2 ^ 32) {endoff : Nat} :
    ∃ d' es', d.direnter ino ⟨endoff, d.iSize, 0, setName dent name⟩ = some d' ∧ Layout d' es' ∧
      (pairs es').Perm ((name, ino) :: pairs es) ∧ d'.iNlink = d.iNlink := by
  have hwhole := h.whole
  obtain ⟨hdIno, hdName⟩ := entryAt_newDent dent hname hino
  let new : Entry := ⟨ino, DIRBLKSIZ, name⟩
  have hnew : entryAt (setReclen (setIno (setName dent name) 0 ino) 0 DIRBLKSIZ) 0 = new := by
    rw [entryAt_setReclen _ _ (by simp [DIRBLKSIZ])]
    exact Entry.ext hdIno rfl hdName
  have hdirsiz : new.dirsiz ≤ DIRBLKSIZ := by
    simp only [new, Entry.dirsiz, DIRBLKSIZ, MAXNAMLEN] at hname ⊢
    omega
  have hlive : new.Is name := ⟨hpos, rfl⟩
  have hpairs : (pairs (es ++ [new])).Perm ((name, ino) :: pairs es) := by
    rw [pairs_append, pairs_live hpos]
    exact List.perm_append_comm
  unfold Directory.direnter
  simp only [if_true, hwhole, ne_eq, not_true_eq_false, if_false, hnew]
  refine ⟨_, es ++ [new], rfl, ?_, hpairs, rfl⟩
  have hsize : roundup (max d.iSize (d.iSize + new.dirsiz)) = d.iSize + DIRBLKSIZ := by
    have hlt := lt_dirsiz new
    simp only [roundup, DIRBLKSIZ] at hwhole hdirsiz ⊢
    omega
  refine ⟨?_, ?_, ?_, h.names_insert hnone hpairs⟩
  · rw [laid_append, Nat.zero_add, h.size]
    refine ⟨h.laid.congr fun a _ ha => ?_, ?_, ⟨hdirsiz, by simp [new, DIRBLKSIZ], ?_⟩, trivial⟩
    · rw [Nat.zero_add, h.size] at ha
      exact rdwri_outside _ ha (by omega)
    · show entryAt (bcopy _ 0 _ d.iSize new.dirsiz) d.iSize = new
      rw [entryAt_bcopy _ _ _ _ (by rw [hnew]), hnew]
    · rw [hwhole]
      simp [new]
  · rw [total_append, h.size]
    exact hsize.symm
  · show roundup (max d.iSize (d.iSize + new.dirsiz)) % DIRBLKSIZ = 0
    exact roundup_mod _

/-- The slot is compacted and the new entry takes what is left. -/
theorem Layout.enterSlot_bytes (h : Layout d (before ++ run ++ after)) (hrun : run ≠ [])
    (hblock : total before % DIRBLKSIZ + total run ≤ DIRBLKSIZ)
    (hneeded : (entryAt dent 0).dirsiz ≤ spares run) :
    ∃ c m', compactLoop (total before) (total run) (total run + 1) (.start d.bytes (total before)) =
        some c ∧
      c.place dent (entryAt dent 0).dirsiz = some m' ∧
      Laid m' 0 (before ++ (trim run ++ [(entryAt dent 0).resize (spares run)]) ++ after) ∧
      total (trim run ++ [(entryAt dent 0).resize (spares run)]) = total run := by
  have hlaid := h.laid
  rw [laid_append, laid_append, Nat.zero_add] at hlaid
  obtain ⟨⟨-, hslot⟩, -⟩ := hlaid
  obtain ⟨first, rest, rfl⟩ := List.exists_cons_of_ne_nil hrun
  have hfuel : total rest < total (first :: rest) + 1 := by
    rw [total_cons]
    omega
  obtain ⟨front, last, c, hloop, hparts, hcompacting⟩ :=
    (Compacting.start hslot).loop (by simpa using hslot) rfl (by simpa using hblock) hfuel
  simp only [List.nil_append, List.singleton_append] at hloop hparts
  have htrimmed := hcompacting.trim (by rw [hcompacting.loc, ← hparts]; exact hblock)
  rw [← hparts] at htrimmed
  obtain ⟨hfree, hnew, htotal, hout⟩ := htrimmed.place hslot hblock hneeded
  refine ⟨c, bcopy (setReclen dent 0 c.trim.spacefree.toNat) 0 c.trim.bytes c.trim.ep
    (entryAt dent 0).dirsiz, hloop, ?_, ?_, htotal⟩
  · rw [place_eq, if_neg (by omega)]
  · refine h.laid.replace (by rw [Nat.zero_add]; exact hnew) htotal ?_
    intro a _ ha
    exact hout a (by omega)

/-- The new entry in the slot; what the truncation cuts off is free. -/
theorem Layout.enterSlot (h : Layout d es) {s : Search} (hdent : (entryAt dent 0).dirsiz = needed)
    (hcreating : Creating needed es s) (hfor : SlotFor needed es dirbuf niCount)
    (hnone : ∀ e ∈ es, ¬ e.Is name) (hpos : ino ≠ 0) (hdIno : (entryAt dent 0).dIno = ino)
    (hdName : (entryAt dent 0).dName = name) {niDent : Bytes} :
    ∃ d' es', d.enterSlot ⟨roundup (max s.enduseful (dirbuf + niCount)), dirbuf, niCount, niDent⟩ dent =
        some d' ∧
      Layout d' es' ∧ (pairs es').Perm ((name, ino) :: pairs es) ∧ d'.iNlink = d.iNlink := by
  obtain ⟨before, run, after, rfl, rfl, rfl, hblock, hneeded⟩ := hfor
  have hrun : run ≠ [] := by
    rintro rfl
    have hlt := lt_dirsiz (entryAt dent 0)
    simp only [spares_nil] at hneeded
    omega
  let new := (entryAt dent 0).resize (spares run)
  have hfit : (entryAt dent 0).dirsiz ≤ spares run := by omega
  obtain ⟨c, m', hloop, hplace, hlaid, htotal⟩ := h.enterSlot_bytes hrun hblock hfit
  have hsize : max d.iSize (total before + total run) = d.iSize := by
    have hle := h.size
    simp only [total_append] at hle
    omega
  have hpairs : (pairs (before ++ (trim run ++ [new]) ++ after)).Perm
      ((name, ino) :: pairs (before ++ run ++ after)) := by
    have hlive : new.dIno ≠ 0 := by
      rw [resize_dIno, hdIno]
      exact hpos
    have hnew : pairs [new] = [(name, ino)] := by
      rw [pairs_live hlive, resize_dIno, resize_dName, hdIno, hdName, pairs_nil]
    simp only [pairs_append, pairs_trim, hnew, ← List.append_assoc]
    exact (List.perm_append_singleton _ _).append_right _ |>.trans (by simp)
  have hd : Layout { d with bytes := m', iSize := d.iSize } (before ++ (trim run ++ [new]) ++ after) :=
    ⟨hlaid, by rw [← h.size]; simp only [total_append, ← htotal]; rfl, h.whole,
      h.names_insert hnone hpairs⟩
  unfold Directory.enterSlot
  simp only [hloop, hplace, hsize, Option.bind_eq_bind, Option.bind_some]
  by_cases htrunc : roundup (max s.enduseful (total before + total run)) ≠ 0 ∧
      roundup (max s.enduseful (total before + total run)) < d.iSize
  · rw [if_pos htrunc]
    have hle := le_roundup (max s.enduseful (total before + total run))
    obtain ⟨useful, rest, huseful, hend, hrest⟩ := hcreating.useful
    obtain ⟨front, back, hsplit, hfront⟩ := hd.laid.split_at (Nat.zero_le _)
      (by rw [hd.size]; exact (Nat.zero_add d.iSize).symm ▸ htrunc.2.le)
      (roundup_mod (max s.enduseful (total before + total run)))
    rw [Nat.zero_add] at hfront
    have hfree : ∀ e ∈ back, e.dIno = 0 :=
      free_behind huseful hrest h.laid.pos hd.laid.pos htotal (by omega) (by omega) hsplit hfront
    rw [hsplit] at hd
    refine ⟨_, front, rfl, hd.itrunc hfree hfront (roundup_mod _), ?_, rfl⟩
    rwa [hsplit, pairs_append, pairs_eq_nil hfree, List.append_nil] at hpairs
  · rw [if_neg htrunc]
    exact ⟨_, _, rfl, hd, hpairs, rfl⟩

/-- `direnter` after `namei` adds the new name, and does not panic. -/
theorem Layout.direnter (h : Layout d es) {s : Search} (hnone : ∀ e ∈ es, ¬ e.Is name)
    (hcreating : Creating (entryAt (setName dent name) 0).dirsiz es s)
    (hname : name.length ≤ MAXNAMLEN) (hpos : ino ≠ 0) (hino : ino < 2 ^ 32) :
    ∃ d', d.direnter ino (d.newSlot s (setName dent name)) = some d' ∧ d'.Valid ∧
      d'.contents = Function.update d.contents name (some ino) ∧ d'.iNlink = d.iNlink := by
  obtain ⟨d', es', henter, hd', hpairs, hnlink⟩ : ∃ d' es',
      d.direnter ino (d.newSlot s (setName dent name)) = some d' ∧ Layout d' es' ∧
      (pairs es').Perm ((name, ino) :: pairs es) ∧ d'.iNlink = d.iNlink := by
    unfold Directory.newSlot
    by_cases hstatus : s.slot.slotstatus = .none
    · rw [if_pos hstatus, roundup_eq h.whole]
      exact h.direnter_newblk hnone hname hpos hino
    · rw [if_neg hstatus]
      obtain ⟨offset, hoffset, hfor⟩ := hcreating.remembers hstatus
      obtain ⟨hdIno, hdName⟩ := entryAt_newDent dent hname hino
      have hcount : s.slot.slotsize ≠ 0 := by
        obtain ⟨before, run, after, rfl, -, hsize, -, hneeded⟩ := hfor
        have hlaid := (laid_append.mp (laid_append.mp h.laid).1).2
        have htrim := hlaid.spares_add_trim
        have hlt := lt_dirsiz (entryAt (setName dent name) 0)
        omega
      simp only [hoffset, Option.getD_some]
      unfold Directory.direnter
      rw [if_neg hcount]
      refine h.enterSlot ?_ hcreating hfor hnone hpos hdIno hdName
      rw [entryAt_setIno _ _ hino, relink_dirsiz]
  exact ⟨d', henter, hd'.valid, h.contents_insert hd' hpairs, hnlink⟩

end DiscoBsd.Dir
