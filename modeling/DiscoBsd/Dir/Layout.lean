import DiscoBsd.Dir.Directory

/-!
# The layout of a directory

`Laid m p es` says that the entries `es` lie one behind the other from `p` on, none of them
across the end of a block. A directory is valid when every block is filled with entries and no
name occurs twice; `Valid.layout` and `Layout.valid` pass between the blocks and the one list of
all entries that the operations are followed on.
-/

namespace DiscoBsd.Dir

open Lib

variable {m m' : Bytes} {p q : Nat} {es as bs : List Entry} {e : Entry}

/-! ## Entries and bytes -/

/-- The entry with another length. -/
def Entry.resize (e : Entry) (reclen : Nat) : Entry := { e with dReclen := reclen }

/-- The entry with another inode. -/
def Entry.relink (e : Entry) (ino : Nat) : Entry := { e with dIno := ino }

@[simp] theorem resize_dIno (e : Entry) (reclen : Nat) : (e.resize reclen).dIno = e.dIno := rfl

@[simp] theorem resize_dName (e : Entry) (reclen : Nat) : (e.resize reclen).dName = e.dName := rfl

@[simp] theorem resize_dReclen (e : Entry) (reclen : Nat) : (e.resize reclen).dReclen = reclen := rfl

@[simp] theorem relink_dIno (e : Entry) (ino : Nat) : (e.relink ino).dIno = ino := rfl

@[simp] theorem relink_dName (e : Entry) (ino : Nat) : (e.relink ino).dName = e.dName := rfl

@[simp] theorem relink_dReclen (e : Entry) (ino : Nat) : (e.relink ino).dReclen = e.dReclen := rfl

@[simp] theorem relink_dirsiz (e : Entry) (ino : Nat) : (e.relink ino).dirsiz = e.dirsiz := rfl

@[simp] theorem resize_dirsiz (e : Entry) (reclen : Nat) : (e.resize reclen).dirsiz = e.dirsiz := rfl

theorem dirsiz_mod (e : Entry) : e.dirsiz % 4 = 0 := by
  unfold Entry.dirsiz
  omega

theorem lt_dirsiz (e : Entry) : 8 + e.dName.length < e.dirsiz := by
  unfold Entry.dirsiz
  omega

theorem length_dName_lt (m : Bytes) (p : Nat) : (entryAt m p).dName.length < 2 ^ 16 := by
  simp only [entryAt, bytesAt_length]
  exact get16_lt m (p + 6)

theorem dReclen_lt (m : Bytes) (p : Nat) : (entryAt m p).dReclen < 2 ^ 16 :=
  get16_lt m (p + 4)

/-- An entry is read from its header and its name only. -/
theorem entryAt_congr (h : ∀ i < (entryAt m p).dirsiz, m (p + i) = m' (q + i)) :
    entryAt m p = entryAt m' q := by
  have hsize := lt_dirsiz (entryAt m p)
  have hnamlen : get16 m (p + 6) = get16 m' (q + 6) := by
    apply get16_congr
    intro i hi
    rw [Nat.add_assoc, Nat.add_assoc]
    exact h (6 + i) (by omega)
  have hino : get32 m p = get32 m' q := get32_congr fun i hi => h i (by omega)
  have hreclen : get16 m (p + 4) = get16 m' (q + 4) := by
    apply get16_congr
    intro i hi
    rw [Nat.add_assoc, Nat.add_assoc]
    exact h (4 + i) (by omega)
  have hname : bytesAt m (p + 8) (get16 m (p + 6)) = bytesAt m' (q + 8) (get16 m (p + 6)) := by
    apply bytesAt_congr
    intro i hi
    have hlen : (entryAt m p).dName.length = get16 m (p + 6) := bytesAt_length
    rw [Nat.add_assoc, Nat.add_assoc]
    exact h (8 + i) (by omega)
  show Entry.mk _ _ _ = Entry.mk _ _ _
  rw [hino, hreclen, hname, hnamlen]

theorem entryAt_bcopy (src : Bytes) (sp : Nat) (dst : Bytes) (dp : Nat) {n : Nat}
    (h : (entryAt src sp).dirsiz ≤ n) : entryAt (bcopy src sp dst dp n) dp = entryAt src sp := by
  symm
  apply entryAt_congr
  intro i hi
  exact (bcopy_inside src sp dst dp (by omega)).symm

theorem entryAt_setReclen (m : Bytes) (p : Nat) {reclen : Nat} (h : reclen < 2 ^ 16) :
    entryAt (setReclen m p reclen) p = (entryAt m p).resize reclen := by
  have hino : get32 (setReclen m p reclen) p = get32 m p :=
    get32_congr fun i hi => put16_outside _ (by omega)
  have hreclen : get16 (setReclen m p reclen) (p + 4) = reclen := get16_put16 m (p + 4) h
  have hnamlen : get16 (setReclen m p reclen) (p + 6) = get16 m (p + 6) :=
    get16_congr fun i hi => put16_outside _ (by omega)
  have hname : bytesAt (setReclen m p reclen) (p + 8) (get16 m (p + 6)) =
      bytesAt m (p + 8) (get16 m (p + 6)) :=
    bytesAt_congr fun i hi => put16_outside _ (by omega)
  simp only [entryAt, Entry.resize, hino, hreclen, hnamlen, hname]

theorem entryAt_setIno (m : Bytes) (p : Nat) {ino : Nat} (h : ino < 2 ^ 32) :
    entryAt (setIno m p ino) p = (entryAt m p).relink ino := by
  have hino : get32 (setIno m p ino) p = ino := get32_put32 m p h
  have hreclen : get16 (setIno m p ino) (p + 4) = get16 m (p + 4) :=
    get16_congr fun i hi => put32_outside _ (by omega)
  have hnamlen : get16 (setIno m p ino) (p + 6) = get16 m (p + 6) :=
    get16_congr fun i hi => put32_outside _ (by omega)
  have hname : bytesAt (setIno m p ino) (p + 8) (get16 m (p + 6)) =
      bytesAt m (p + 8) (get16 m (p + 6)) :=
    bytesAt_congr fun i hi => put32_outside _ (by omega)
  simp only [entryAt, Entry.relink, hino, hreclen, hnamlen, hname]

theorem dName_setName (m : Bytes) {name : Name} (h : name.length < 2 ^ 16) :
    (entryAt (setName m name) 0).dName = name := by
  have hnamlen : get16 (setName m name) (0 + 6) = name.length :=
    get16_put16 (putBytes m 8 (name ++ [0])) 6 h
  have hname : bytesAt (setName m name) (0 + 8) name.length =
      bytesAt (putBytes m 8 (name ++ [0])) 8 name.length :=
    bytesAt_congr fun i hi => put16_outside _ (by omega)
  have hbytes : bytesAt (putBytes m 8 (name ++ [0])) 8 name.length = name := by
    apply List.ext_getElem (by simp)
    intro i hi hi'
    simp only [bytesAt, List.getElem_map, List.getElem_range]
    rw [putBytes_inside (name ++ [0]) (by simp; omega), List.getElem_append_left hi']
  show bytesAt (setName m name) (0 + 8) (get16 (setName m name) (0 + 6)) = name
  rw [hnamlen, hname, hbytes]

/-! ## Entries one behind the other -/

/-- The bytes that the entries take. -/
def total (es : List Entry) : Nat := (es.map Entry.dReclen).sum

@[simp] theorem total_nil : total [] = 0 := rfl

@[simp] theorem total_cons (e : Entry) (es : List Entry) :
    total (e :: es) = e.dReclen + total es := rfl

@[simp] theorem total_append (as bs : List Entry) : total (as ++ bs) = total as + total bs := by
  simp [total]

/-- An entry that may stand at `p`: in one block, of whole words, and large enough for its name. -/
structure Entry.Fits (e : Entry) (p : Nat) : Prop where
  size : e.dirsiz ≤ e.dReclen
  words : e.dReclen % 4 = 0
  block : p % DIRBLKSIZ + e.dReclen ≤ DIRBLKSIZ

/-- The entries lie one behind the other from `p` on. -/
def Laid (m : Bytes) : Nat → List Entry → Prop
  | _, [] => True
  | p, e :: es => entryAt m p = e ∧ e.Fits p ∧ Laid m (p + e.dReclen) es

theorem Entry.Fits.pos (h : e.Fits p) : 0 < e.dReclen := by
  have hsize := h.size
  have hpos := lt_dirsiz e
  omega

theorem laid_append : Laid m p (as ++ bs) ↔ Laid m p as ∧ Laid m (p + total as) bs := by
  induction as generalizing p with
  | nil => simp [Laid]
  | cons e as ih =>
      simp only [List.cons_append, Laid, ih, total_cons, Nat.add_assoc, and_assoc]

/-- What is laid out depends on its own bytes only. -/
theorem Laid.congr (h : Laid m p es)
    (hbytes : ∀ a, p ≤ a → a < p + total es → m' a = m a) : Laid m' p es := by
  induction es generalizing p with
  | nil => trivial
  | cons e es ih =>
      obtain ⟨hentry, hfits, hrest⟩ := h
      have hsize := hfits.size
      simp only [total_cons] at hbytes
      refine ⟨?_, hfits, ih hrest fun a ha ha' => hbytes a (by omega) (by omega)⟩
      rw [← hentry]
      symm
      apply entryAt_congr
      intro i hi
      rw [hentry] at hi
      exact (hbytes (p + i) (by omega) (by omega)).symm

theorem Laid.pos (h : Laid m p es) : ∀ e ∈ es, 0 < e.dReclen := by
  induction es generalizing p with
  | nil => simp
  | cons e es ih =>
      obtain ⟨-, hfits, hrest⟩ := h
      intro e' he'
      cases he' with
      | head => exact hfits.pos
      | tail _ he' => exact ih hrest e' he'

theorem Laid.total_mod (h : Laid m p es) : total es % 4 = 0 := by
  induction es generalizing p with
  | nil => rfl
  | cons e es ih =>
      obtain ⟨-, hfits, hrest⟩ := h
      have hwords := hfits.words
      have htail := ih hrest
      rw [total_cons]
      omega

theorem length_le_total (h : ∀ e ∈ es, 0 < e.dReclen) : es.length ≤ total es := by
  induction es with
  | nil => simp
  | cons e es ih =>
      have hpos := h e (by simp)
      have htail := ih fun e' he' => h e' (by simp [he'])
      simp only [List.length_cons, total_cons]
      omega

/-- Every end of a block is the end of an entry. -/
theorem Laid.split_at (h : Laid m p es) (hle : p ≤ q) (hq : q ≤ p + total es)
    (hblock : q % DIRBLKSIZ = 0) : ∃ as bs, es = as ++ bs ∧ p + total as = q := by
  induction es generalizing p with
  | nil => exact ⟨[], [], rfl, by simp at hq ⊢; omega⟩
  | cons e es ih =>
      obtain ⟨-, hfits, hrest⟩ := h
      rcases Nat.eq_or_lt_of_le hle with heq | hlt
      · exact ⟨[], e :: es, rfl, by simp [heq]⟩
      · have hend := hfits.block
        simp only [DIRBLKSIZ] at hend hblock
        simp only [total_cons] at hq
        obtain ⟨as, bs, hes, htotal⟩ := ih hrest (by omega) (by omega)
        refine ⟨e :: as, bs, by rw [hes]; rfl, ?_⟩
        rw [total_cons]
        omega

/-- Two ways to cut a list: the shorter first part begins the longer one. -/
theorem append_of_total_le {xs ys : List Entry} (hpos : ∀ e ∈ xs, 0 < e.dReclen)
    (heq : xs ++ ys = as ++ bs) (hle : total xs ≤ total as) :
    ∃ cs, as = xs ++ cs ∧ ys = cs ++ bs := by
  rcases List.append_eq_append_iff.mp heq with ⟨cs, has, hys⟩ | ⟨cs, hxs, hbs⟩
  · exact ⟨cs, has, hys⟩
  · rw [hxs, total_append] at hle
    have hlen : cs.length ≤ total cs := by
      apply length_le_total
      intro e he
      exact hpos e (by rw [hxs]; simp [he])
    have hnil : cs = [] := List.eq_nil_of_length_eq_zero (by omega)
    subst hnil
    simp only [List.append_nil, List.nil_append] at hxs hbs
    exact ⟨[], by simp [hxs], by simp [hbs]⟩

/-! ## Valid directories -/

/-- The entries in the `left` bytes from `p` on, as one `d_reclen` leads to the next. -/
def entriesIn (m : Bytes) : Nat → Nat → Nat → List Entry
  | 0, _, _ => []
  | fuel + 1, p, left =>
      if left = 0 then []
      else
        let ep := entryAt m p
        ep :: entriesIn m fuel (p + ep.dReclen) (left - ep.dReclen)

/-- The entries of a block. -/
def Directory.block (d : Directory) (b : Nat) : List Entry :=
  entriesIn d.bytes DIRBLKSIZ (DIRBLKSIZ * b) DIRBLKSIZ

/-- The entries of all blocks. -/
def Directory.entries (d : Directory) : List Entry := (List.range (d.iSize / DIRBLKSIZ)).flatMap d.block

/-- The names in use, with their inodes. -/
def pairs (es : List Entry) : List (Name × Nat) :=
  (es.filter fun e => e.dIno ≠ 0).map fun e => (e.dName, e.dIno)

/-- The directory as a finite map. -/
def Directory.contents (d : Directory) (name : Name) : Option Nat := (pairs d.entries).lookup name

/-- A block filled with entries. -/
structure ValidBlock (es : List Entry) : Prop where
  words : ∀ e ∈ es, e.dReclen % 4 = 0
  size : ∀ e ∈ es, e.dirsiz ≤ e.dReclen
  full : total es = DIRBLKSIZ

/-- Every block is filled with entries, and the names are distinct. -/
structure Directory.Valid (d : Directory) : Prop where
  whole : d.iSize % DIRBLKSIZ = 0
  blocks : ∀ b < d.iSize / DIRBLKSIZ, ValidBlock (d.block b)
  names : ((pairs d.entries).map Prod.fst).Nodup

/-- The entries of the directory in one list. -/
structure Layout (d : Directory) (es : List Entry) : Prop where
  laid : Laid d.bytes 0 es
  size : total es = d.iSize
  whole : d.iSize % DIRBLKSIZ = 0
  names : ((pairs es).map Prod.fst).Nodup

theorem entriesIn_of_laid {fuel left : Nat} (h : Laid m p es) (htotal : total es = left)
    (hfuel : left ≤ fuel) : entriesIn m fuel p left = es := by
  induction fuel generalizing p left es with
  | zero =>
      have hlen := length_le_total h.pos
      rw [List.eq_nil_of_length_eq_zero (by omega : es.length = 0)]
      rfl
  | succ fuel ih =>
      cases es with
      | nil =>
          rw [entriesIn, if_pos (by rw [← htotal]; rfl)]
      | cons e es =>
          obtain ⟨hentry, hfits, hrest⟩ := h
          have hpos := hfits.pos
          rw [total_cons] at htotal
          rw [entriesIn, if_neg (by omega)]
          simp only [hentry]
          rw [ih hrest (by omega) (by omega)]

theorem laid_entriesIn {fuel left : Nat}
    (hwords : ∀ e ∈ entriesIn m fuel p left, e.dReclen % 4 = 0)
    (hsize : ∀ e ∈ entriesIn m fuel p left, e.dirsiz ≤ e.dReclen)
    (htotal : total (entriesIn m fuel p left) = left)
    (hblock : p % DIRBLKSIZ + left ≤ DIRBLKSIZ) : Laid m p (entriesIn m fuel p left) := by
  induction fuel generalizing p left with
  | zero => trivial
  | succ fuel ih =>
      by_cases hleft : left = 0
      · rw [entriesIn, if_pos hleft]
        trivial
      · rw [entriesIn, if_neg hleft] at hwords hsize htotal ⊢
        simp only [List.forall_mem_cons] at hwords hsize
        simp only [total_cons] at htotal
        simp only [DIRBLKSIZ] at hblock
        refine ⟨rfl, ⟨hsize.1, hwords.1, ?_⟩, ih hwords.2 hsize.2 (by omega) ?_⟩
        · simp only [DIRBLKSIZ]
          omega
        · simp only [DIRBLKSIZ]
          omega

theorem ValidBlock.of_laid (h : Laid m p es) (hfull : total es = DIRBLKSIZ) : ValidBlock es := by
  have hfits : ∀ e ∈ es, e.dReclen % 4 = 0 ∧ e.dirsiz ≤ e.dReclen := by
    clear hfull
    induction es generalizing p with
    | nil => simp
    | cons e es ih =>
        obtain ⟨-, hfits, hrest⟩ := h
        simp only [List.forall_mem_cons]
        exact ⟨⟨hfits.words, hfits.size⟩, ih hrest⟩
  exact ⟨fun e he => (hfits e he).1, fun e he => (hfits e he).2, hfull⟩

/-- Blocks that are filled lie one behind the other. -/
theorem laid_blocks {d : Directory} {n : Nat} (h : ∀ b < n, ValidBlock (d.block b)) :
    Laid d.bytes 0 ((List.range n).flatMap d.block) ∧
      total ((List.range n).flatMap d.block) = DIRBLKSIZ * n := by
  induction n with
  | zero => exact ⟨trivial, rfl⟩
  | succ n ih =>
      obtain ⟨hlaid, htotal⟩ := ih fun b hb => h b (by omega)
      have hblock := h n (by omega)
      have hfull := hblock.full
      rw [List.range_succ, List.flatMap_append, List.flatMap_singleton, total_append, htotal,
        hfull]
      refine ⟨laid_append.mpr ⟨hlaid, ?_⟩, by simp only [DIRBLKSIZ]; omega⟩
      rw [htotal, Nat.zero_add]
      exact laid_entriesIn hblock.words hblock.size hfull (by simp [DIRBLKSIZ])

/-- What is laid out from the start falls into blocks. -/
theorem blocks_of_laid {d : Directory} {n : Nat} (h : Laid d.bytes 0 es)
    (htotal : total es = DIRBLKSIZ * n) :
    (∀ b < n, ValidBlock (d.block b)) ∧ (List.range n).flatMap d.block = es := by
  induction n generalizing es with
  | zero =>
      have hlen := length_le_total h.pos
      rw [List.eq_nil_of_length_eq_zero (by omega : es.length = 0)]
      exact ⟨by simp, rfl⟩
  | succ n ih =>
      obtain ⟨as, bs, rfl, has⟩ := h.split_at (q := DIRBLKSIZ * n) (by omega)
        (by rw [htotal]; simp only [DIRBLKSIZ]; omega) (by simp)
      rw [Nat.zero_add] at has
      obtain ⟨hlaid, hlast⟩ := laid_append.mp h
      rw [Nat.zero_add, has] at hlast
      have hbs : total bs = DIRBLKSIZ := by
        rw [total_append, has, Nat.mul_succ] at htotal
        omega
      have hblock : d.block n = bs := entriesIn_of_laid hlast hbs le_rfl
      obtain ⟨hvalid, hflat⟩ := ih hlaid has
      constructor
      · intro b hb
        rcases Nat.lt_succ_iff_lt_or_eq.mp hb with hlt | rfl
        · exact hvalid b hlt
        · rw [hblock]
          exact ValidBlock.of_laid hlast hbs
      · rw [List.range_succ, List.flatMap_append, List.flatMap_singleton, hflat, hblock]

theorem Directory.Valid.layout {d : Directory} (h : d.Valid) : Layout d d.entries := by
  obtain ⟨hlaid, htotal⟩ := laid_blocks h.blocks
  have hwhole := h.whole
  refine ⟨hlaid, ?_, hwhole, h.names⟩
  rw [show d.entries = (List.range (d.iSize / DIRBLKSIZ)).flatMap d.block from rfl, htotal]
  exact Nat.mul_div_cancel' (Nat.dvd_of_mod_eq_zero hwhole)

theorem Layout.entries_eq {d : Directory} (h : Layout d es) : d.entries = es := by
  have htotal : total es = DIRBLKSIZ * (d.iSize / DIRBLKSIZ) := by
    rw [h.size, Nat.mul_div_cancel' (Nat.dvd_of_mod_eq_zero h.whole)]
  exact (blocks_of_laid h.laid htotal).2

theorem Layout.valid {d : Directory} (h : Layout d es) : d.Valid := by
  have htotal : total es = DIRBLKSIZ * (d.iSize / DIRBLKSIZ) := by
    rw [h.size, Nat.mul_div_cancel' (Nat.dvd_of_mod_eq_zero h.whole)]
  refine ⟨h.whole, (blocks_of_laid h.laid htotal).1, ?_⟩
  rw [h.entries_eq]
  exact h.names

end DiscoBsd.Dir
