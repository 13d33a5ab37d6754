import DiscoBsd.Dir.Search

/-!
# What `namei` finds

`namei_finds` lists everything that `namei` can come back with on a valid directory: the entry
of the name and where it stands, the slot for a new entry, or `ENOENT`. It changes neither the
directory nor the alignment of the offset at which the next lookup of the process starts.
-/

namespace DiscoBsd.Dir

open Lib

variable {d : Directory} {es before after : List Entry} {name : Name} {op : Nameiop} {dent : Bytes}
  {ncache : Option Nat} {needed start : Nat} {e : Entry}

theorem roundup_eq {x : Nat} (h : x % DIRBLKSIZ = 0) : roundup x = x := by
  simp only [roundup, DIRBLKSIZ] at h ⊢
  omega

theorem le_roundup (x : Nat) : x ≤ roundup x := by
  simp only [roundup, DIRBLKSIZ]
  omega

theorem roundup_mod (x : Nat) : roundup x % DIRBLKSIZ = 0 := by
  simp [roundup]

/-- The offset at which a lookup starts is the start of a block. -/
def Aligned (ncache : Option Nat) : Prop := ∀ prevoffset ∈ ncache, prevoffset % DIRBLKSIZ = 0

/-! ## The start of the search -/

theorem Position.of_start (op : Nameiop) (start : Nat) : Position start [] (.start op start) where
  offset := by simp [Search.start]
  inblock := fun _ => rfl
  prevoff := by simp

theorem Creating.of_start (needed : Nat) : Creating needed [] (.start .create 0) where
  useful := ⟨[], [], rfl, rfl, by simp⟩
  gathers := fun _ hne => absurd (by simp [Search.start]) hne
  remembers := by simp [Search.start]

/-- The search over the part of the directory from `start` on, to `endsearch`. -/
theorem ends_from {s : Search} {todo : List Entry} (hposition : Position start [] s)
    (hlaid : Laid d.bytes start todo) {endsearch : Nat} (hend : start + total todo = endsearch) :
    Ends (Position start) name needed [] todo start
      (searchloop d.bytes name needed endsearch endsearch s) := by
  have hstart : s.niOffset = start := by simpa using hposition.offset
  have hstep : ∀ seen e s, Position start seen s → e.Fits s.niOffset →
      Position start (seen ++ [e]) (s.visit needed e) := fun _ _ _ h hfits => h.visit hfits
  have hends : Ends (Position start) name needed [] todo s.niOffset
      (searchloop d.bytes name needed endsearch endsearch s) :=
    searchloop_ends hstep hposition (hstart ▸ hlaid) (hstart ▸ hend) (by omega)
  rwa [hstart] at hends

/-- The search of a creation, over the whole directory. -/
theorem Layout.ends_create (h : Layout d es) (needed : Nat) :
    Ends (fun seen s => Position 0 seen s ∧ Creating needed seen s) name needed [] es 0
      (searchloop d.bytes name needed d.iSize d.iSize (.start .create 0)) := by
  have hstep : ∀ seen e s, Position 0 seen s ∧ Creating needed seen s → e.Fits s.niOffset →
      Position 0 (seen ++ [e]) (s.visit needed e) ∧ Creating needed (seen ++ [e]) (s.visit needed e) :=
    fun _ _ _ hinv hfits => ⟨hinv.1.visit hfits, hinv.2.visit hinv.1 hfits⟩
  have hend : (Search.start .create 0).niOffset + total es = d.iSize := by
    simp [Search.start, h.size]
  exact searchloop_ends hstep ⟨Position.of_start .create 0, Creating.of_start needed⟩ h.laid hend
    h.size.le

/-! ## Everything that `namei` can find -/

/-- What `namei` comes back with. -/
inductive Finds (d : Directory) (es : List Entry) (op : Nameiop) (name : Name) (dent : Bytes) :
    Result → Prop where
  | found {before after : List Entry} {e : Entry} {s : Search} :
      es = before ++ e :: after → e.Is name → s.niOffset = total before →
      (op ≠ .lookup → ∀ front e', before = front ++ [e'] → s.prevoff = total front) →
      Finds d es op name dent (.found (s.foundEntry e dent))
  | absent {s : Search} :
      (∀ e ∈ es, ¬ e.Is name) → op = .create → d.iNlink ≠ 0 →
      Creating (entryAt dent 0).dirsiz es s →
      Finds d es op name dent (.absent (d.newSlot s dent))
  | enoent :
      (∀ e ∈ es, ¬ e.Is name) → (op = .create → d.iNlink = 0) → Finds d es op name dent .enoent

/-- The entry fits in its block, so that the length of the directory is right. -/
theorem Position.fixSize_eq {s : Search} {seen : List Entry} (hposition : Position start seen s)
    (hfits : e.Fits s.niOffset) (hsize : s.niOffset + e.dReclen ≤ d.iSize) :
    d.fixSize (s.atBlock.checkSlot needed e) e = d := by
  have hin : (s.atBlock.checkSlot needed e).entryoffsetinblock = s.niOffset % DIRBLKSIZ :=
    hposition.atBlock
  have hdirsiz := hfits.size
  have hmod := Nat.mod_le s.niOffset DIRBLKSIZ
  unfold Directory.fixSize
  rw [hin, if_neg (by omega)]

/-- What the search comes to: the entry, or that there is none. -/
def Searched (d : Directory) (es : List Entry) (op : Nameiop) (name : Name) (dent : Bytes) :
    Scan → Prop
  | .found s e => Finds d es op name dent (.found (s.foundEntry e dent)) ∧ d.fixSize s e = d
  | .notfound s => (∀ e ∈ es, ¬ e.Is name) ∧
      (op = .create → Creating (entryAt dent 0).dirsiz es s)

/-- An entry that is found in a pass over a part of the directory. -/
theorem Layout.searched_found (h : Layout d es) {front todo back : List Entry} {s : Search}
    (hes : es = front ++ todo ++ back) (hfront : op ≠ .lookup → front = [])
    (htodo : todo = before ++ e :: after) (his : e.Is name)
    (hposition : Position (total front) before s) (hfits : e.Fits s.niOffset) :
    Searched d es op name dent (.found (s.atBlock.checkSlot needed e) e) := by
  have hoffset := hposition.offset
  have hsplit : es = (front ++ before) ++ e :: (after ++ back) := by
    rw [hes, htodo]
    simp
  have hsize : s.niOffset + e.dReclen ≤ d.iSize := by
    rw [← h.size, hsplit, total_append, total_append, total_cons, hoffset]
    omega
  refine ⟨.found hsplit his ?_ ?_, hposition.fixSize_eq hfits hsize⟩
  · show s.niOffset = _
    rw [hoffset, total_append]
  · intro hop front' e' heq
    have hnil := hfront hop
    subst hnil
    have hprev := hposition.prevoff front' e' heq
    rw [total_nil, Nat.zero_add] at hprev
    exact hprev

/-- A search in two passes, from the middle of the directory. -/
theorem Layout.searched_twice (h : Layout d es) {front back : List Entry} (hes : es = front ++ back)
    (hop : op = .lookup) :
    Searched d es op name dent
      (match searchloop d.bytes name needed d.iSize d.iSize (.start op (total front)) with
        | .found s ep => .found s ep
        | .notfound s =>
            searchloop d.bytes name needed (total front) (total front) { s with niOffset := 0 }) := by
  have hlaid := h.laid
  rw [hes, laid_append, Nat.zero_add] at hlaid
  have hsize : total front + total back = d.iSize := by
    rw [← h.size, hes, total_append]
  have hback : Ends (Position (total front)) name needed [] back (total front)
      (searchloop d.bytes name needed d.iSize d.iSize (.start op (total front))) :=
    ends_from (Position.of_start op _) hlaid.2 hsize
  generalize searchloop d.bytes name needed d.iSize d.iSize (.start op (total front)) = scan
    at hback
  cases hback with
  | found htodo his _ hposition _ hfits =>
      have hparts : es = front ++ back ++ [] := by rw [hes, List.append_nil]
      exact h.searched_found hparts (absurd hop ·) htodo his hposition hfits
  | @notfound s hnone _ _ =>
      have hposition : Position 0 [] { s with niOffset := 0 } :=
        ⟨rfl, fun hne => absurd (Nat.zero_mod _) hne, by simp⟩
      have hfront : Ends (Position 0) name needed [] front 0
          (searchloop d.bytes name needed (total front) (total front) { s with niOffset := 0 }) :=
        ends_from hposition hlaid.1 (Nat.zero_add _)
      show Searched d es op name dent (searchloop d.bytes name needed (total front) (total front)
        { s with niOffset := 0 })
      generalize searchloop d.bytes name needed (total front) (total front)
        { s with niOffset := 0 } = scan at hfront
      cases hfront with
      | found htodo his _ hposition _ hfits =>
          have hparts : es = [] ++ front ++ back := by rw [hes, List.nil_append]
          exact h.searched_found hparts (fun _ => rfl) htodo his hposition hfits
      | notfound hnone' _ _ =>
          refine ⟨?_, by simp [hop]⟩
          rw [hes]
          intro e he
          rcases List.mem_append.mp he with hin | hin
          · exact hnone' e hin
          · exact hnone e hin

/-- A search in one pass. -/
theorem Layout.searched_once (h : Layout d es) :
    Searched d es op name dent (searchloop d.bytes name (entryAt dent 0).dirsiz d.iSize d.iSize
      (.start op 0)) := by
  have hparts : es = [] ++ es ++ [] := by simp
  by_cases hop : op = .create
  · subst hop
    have hends : Ends (fun seen s => Position 0 seen s ∧ Creating (entryAt dent 0).dirsiz seen s)
        name (entryAt dent 0).dirsiz [] es 0
        (searchloop d.bytes name (entryAt dent 0).dirsiz d.iSize d.iSize (.start .create 0)) :=
      h.ends_create _
    generalize searchloop d.bytes name (entryAt dent 0).dirsiz d.iSize d.iSize _ = scan at hends
    cases hends with
    | found htodo his _ hinv _ hfits =>
        exact h.searched_found hparts (fun _ => rfl) htodo his hinv.1 hfits
    | notfound hnone hinv _ => exact ⟨hnone, fun _ => hinv.2⟩
  · have hends : Ends (Position 0) name (entryAt dent 0).dirsiz [] es 0
        (searchloop d.bytes name (entryAt dent 0).dirsiz d.iSize d.iSize (.start op 0)) :=
      ends_from (Position.of_start op 0) h.laid (by rw [h.size, Nat.zero_add])
    generalize searchloop d.bytes name (entryAt dent 0).dirsiz d.iSize d.iSize _ = scan at hends
    cases hends with
    | found htodo his _ hposition _ hfits =>
        exact h.searched_found hparts (fun _ => rfl) htodo his hposition hfits
    | notfound hnone _ _ => exact ⟨hnone, fun heq => absurd heq hop⟩

/-- Where a lookup starts is the start of a block of the directory. -/
theorem startOffset_aligned (haligned : Aligned ncache)
    {prevoffset : Nat} (hstart : d.startOffset op ncache = some prevoffset) :
    op = .lookup ∧ prevoffset % DIRBLKSIZ = 0 ∧ prevoffset ≤ d.iSize := by
  unfold Directory.startOffset at hstart
  split at hstart
  · cases hstart
  · next hop =>
    obtain ⟨cached, hcached, heq⟩ := Option.map_eq_some_iff.mp hstart
    have hmod := haligned cached hcached
    refine ⟨by simpa using hop, ?_, ?_⟩
    · split at heq
      · rw [← heq, Nat.zero_mod]
      · rw [← heq, hmod]
    · split at heq <;> omega

theorem Layout.search_spec (h : Layout d es) (haligned : Aligned ncache) :
    Searched d es op name dent (d.search op name dent ncache) := by
  unfold Directory.search
  simp only [roundup_eq h.whole]
  cases hstart : d.startOffset op ncache with
  | none => exact h.searched_once
  | some prevoffset =>
      obtain ⟨hop, hmod, hle⟩ := startOffset_aligned haligned hstart
      obtain ⟨front, back, hes, hfront⟩ :=
        h.laid.split_at (Nat.zero_le prevoffset) (by rw [h.size]; omega) hmod
      rw [Nat.zero_add] at hfront
      subst hfront
      exact h.searched_twice hes hop

/-- Everything that `namei` can come back with. -/
theorem Layout.namei_finds (h : Layout d es) (haligned : Aligned ncache) :
    ∃ result ncache', d.namei op name dent ncache = (result, d, ncache') ∧
      Finds d es op name (setName dent name) result ∧ Aligned ncache' := by
  have hspec : Searched d es op name (setName dent name)
      (d.search op name (setName dent name) ncache) := h.search_spec haligned
  unfold Directory.namei
  simp only
  generalize d.search op name (setName dent name) ncache = scan at hspec
  cases scan with
  | found s e =>
      obtain ⟨hfinds, hsize⟩ := hspec
      simp only [hsize]
      refine ⟨_, _, rfl, hfinds, ?_⟩
      split
      · intro prevoffset hprev
        cases hprev
        simp
      · exact haligned
  | notfound s =>
      obtain ⟨hnone, hcreating⟩ := hspec
      have haligned' : Aligned (if op = .lookup then d.startOffset op ncache else ncache) := by
        split
        · intro prevoffset hprev
          exact (startOffset_aligned haligned hprev).2.1
        · exact haligned
      by_cases hcreate : op = .create ∧ d.iNlink ≠ 0
      · simp only [if_pos hcreate]
        exact ⟨_, _, rfl, .absent hnone hcreate.1 hcreate.2 (hcreating hcreate.1), haligned'⟩
      · simp only [if_neg hcreate]
        exact ⟨_, _, rfl, .enoent hnone (by simpa using hcreate), haligned'⟩

end DiscoBsd.Dir
