import Mathlib.Algebra.Group.Nat.Defs
import Mathlib.Data.List.Nodup
import Mathlib.Data.List.Perm.Basic

/-!
# Trees of pointers in a store of blocks

A block that is used as an inner node holds `fan` pointers, and 0 is the null pointer. `blocks` lists
the blocks of a tree of a fixed height, `inner` those that hold pointers, and `follow` goes down a
path. A store may change anywhere but in the inner nodes without any effect on the tree
(`blocks_congr`, `follow_congr`); `blocks_replace` says what a tree becomes when one child of its
root is replaced. That no block occurs twice is `(blocks fan mem height p).Nodup`.
-/

namespace DiscoBsd.Lib.Pointers

variable {fan : Nat} {mem mem' : Nat → Nat → Nat}

/-- The blocks of the tree of the given height at a pointer. -/
def blocks (fan : Nat) (mem : Nat → Nat → Nat) : Nat → Nat → List Nat
  | 0, p => if p = 0 then [] else [p]
  | height + 1, p =>
      if p = 0 then [] else p :: (List.range fan).flatMap fun i => blocks fan mem height (mem p i)

/-- The blocks that hold pointers. -/
def inner (fan : Nat) (mem : Nat → Nat → Nat) : Nat → Nat → List Nat
  | 0, _ => []
  | height + 1, p =>
      if p = 0 then [] else p :: (List.range fan).flatMap fun i => inner fan mem height (mem p i)

/-- The pointer at the end of a path, or 0. -/
def follow (mem : Nat → Nat → Nat) : List Nat → Nat → Nat
  | [], p => p
  | i :: path, p => if p = 0 then 0 else follow mem path (mem p i)

@[simp] theorem blocks_null (height : Nat) : blocks fan mem height 0 = [] := by
  cases height <;> simp [blocks]

@[simp] theorem inner_null (height : Nat) : inner fan mem height 0 = [] := by
  cases height <;> simp [inner]

@[simp] theorem follow_null (path : List Nat) : follow mem path 0 = 0 := by
  cases path <;> simp [follow]

theorem blocks_leaf {p : Nat} (h : p ≠ 0) : blocks fan mem 0 p = [p] := if_neg h

theorem blocks_node {height p : Nat} (h : p ≠ 0) :
    blocks fan mem (height + 1) p =
      p :: (List.range fan).flatMap fun i => blocks fan mem height (mem p i) :=
  if_neg h

theorem inner_node {height p : Nat} (h : p ≠ 0) :
    inner fan mem (height + 1) p =
      p :: (List.range fan).flatMap fun i => inner fan mem height (mem p i) :=
  if_neg h

theorem root_mem_blocks {height p : Nat} (h : p ≠ 0) : p ∈ blocks fan mem height p := by
  cases height with
  | zero => simp [blocks_leaf h]
  | succ height => simp [blocks_node h]

theorem child_mem_blocks {height p i b : Nat} (h : p ≠ 0) (hi : i < fan)
    (hb : b ∈ blocks fan mem height (mem p i)) : b ∈ blocks fan mem (height + 1) p := by
  rw [blocks_node h]
  exact List.mem_cons_of_mem _ (List.mem_flatMap.mpr ⟨i, List.mem_range.mpr hi, hb⟩)

theorem child_mem_inner {height p i b : Nat} (h : p ≠ 0) (hi : i < fan)
    (hb : b ∈ inner fan mem height (mem p i)) : b ∈ inner fan mem (height + 1) p := by
  rw [inner_node h]
  exact List.mem_cons_of_mem _ (List.mem_flatMap.mpr ⟨i, List.mem_range.mpr hi, hb⟩)

theorem inner_subset_blocks {height p b : Nat} (hb : b ∈ inner fan mem height p) :
    b ∈ blocks fan mem height p := by
  induction height generalizing p with
  | zero => cases hb
  | succ height ih =>
      by_cases h : p = 0
      · simp [h] at hb
      · rw [inner_node h] at hb
        rcases List.mem_cons.mp hb with rfl | hchild
        · exact root_mem_blocks h
        · obtain ⟨i, hi, hmem⟩ := List.mem_flatMap.mp hchild
          exact child_mem_blocks h (List.mem_range.mp hi) (ih hmem)

/-- A tree depends only on its inner nodes. -/
theorem blocks_congr {height p : Nat}
    (h : ∀ b ∈ inner fan mem height p, ∀ i < fan, mem' b i = mem b i) :
    blocks fan mem' height p = blocks fan mem height p := by
  induction height generalizing p with
  | zero => rfl
  | succ height ih =>
      by_cases hp : p = 0
      · simp [hp]
      · rw [blocks_node hp, blocks_node hp]
        congr 1
        refine List.flatMap_congr fun i hi => ?_
        have hlt := List.mem_range.mp hi
        rw [h p (by simp [inner_node hp]) i hlt]
        exact ih fun b hb => h b (child_mem_inner hp hlt hb)

theorem inner_congr {height p : Nat}
    (h : ∀ b ∈ inner fan mem height p, ∀ i < fan, mem' b i = mem b i) :
    inner fan mem' height p = inner fan mem height p := by
  induction height generalizing p with
  | zero => rfl
  | succ height ih =>
      by_cases hp : p = 0
      · simp [hp]
      · rw [inner_node hp, inner_node hp]
        congr 1
        refine List.flatMap_congr fun i hi => ?_
        have hlt := List.mem_range.mp hi
        rw [h p (by simp [inner_node hp]) i hlt]
        exact ih fun b hb => h b (child_mem_inner hp hlt hb)

/-- A path depends only on the inner nodes. -/
theorem follow_congr {height p : Nat} {path : List Nat} (hlength : path.length ≤ height)
    (hpath : ∀ i ∈ path, i < fan)
    (h : ∀ b ∈ inner fan mem height p, ∀ i < fan, mem' b i = mem b i) :
    follow mem' path p = follow mem path p := by
  induction path generalizing height p with
  | nil => rfl
  | cons i path ih =>
      cases height with
      | zero => simp at hlength
      | succ height =>
          by_cases hp : p = 0
          · simp [hp]
          · have hi := hpath i List.mem_cons_self
            simp only [follow, if_neg hp]
            rw [h p (by simp [inner_node hp]) i hi]
            exact ih (Nat.le_of_succ_le_succ hlength)
              (fun j hj => hpath j (List.mem_cons_of_mem _ hj))
              fun b hb => h b (child_mem_inner hp hi hb)

theorem follow_mem_blocks (fan height : Nat) {p : Nat} {path : List Nat}
    (hlength : path.length ≤ height)
    (hpath : ∀ i ∈ path, i < fan) (hne : follow mem path p ≠ 0) :
    follow mem path p ∈ blocks fan mem height p := by
  induction path generalizing height p with
  | nil => exact root_mem_blocks hne
  | cons i path ih =>
      cases height with
      | zero => simp at hlength
      | succ height =>
          by_cases hp : p = 0
          · simp [hp] at hne
          · simp only [follow, if_neg hp] at hne ⊢
            exact child_mem_blocks hp (hpath i List.mem_cons_self)
              (ih height (by simpa using hlength) (fun j hj => hpath j (List.mem_cons_of_mem _ hj))
                hne)

/-- A pointer in an inner node names a block of the tree. -/
theorem pointer_mem_blocks {height p b i : Nat} (hb : b ∈ inner fan mem height p) (hi : i < fan)
    (hne : mem b i ≠ 0) : mem b i ∈ blocks fan mem height p := by
  induction height generalizing p with
  | zero => cases hb
  | succ height ih =>
      by_cases hp : p = 0
      · simp [hp] at hb
      · rw [inner_node hp] at hb
        rcases List.mem_cons.mp hb with rfl | hchild
        · exact child_mem_blocks hp hi (root_mem_blocks hne)
        · obtain ⟨j, hj, hmem⟩ := List.mem_flatMap.mp hchild
          exact child_mem_blocks hp (List.mem_range.mp hj) (ih hmem)

/-- A block of null pointers is a tree of its own. -/
theorem blocks_cleared (fan height : Nat) {p : Nat} (hp : p ≠ 0) (h : ∀ i < fan, mem p i = 0) :
    blocks fan mem height p = [p] := by
  cases height with
  | zero => exact blocks_leaf hp
  | succ height =>
      rw [blocks_node hp]
      congr 1
      refine List.flatMap_eq_nil_iff.mpr fun i hi => ?_
      rw [h i (List.mem_range.mp hi), blocks_null]

theorem follow_cleared {p i : Nat} {path : List Nat} (h : mem p i = 0) :
    follow mem (i :: path) p = 0 := by
  simp [follow, h]

/-! ## No block occurs twice -/

theorem nodup_child {height p i : Nat} (h : (blocks fan mem (height + 1) p).Nodup) (hp : p ≠ 0)
    (hi : i < fan) : (blocks fan mem height (mem p i)).Nodup := by
  rw [blocks_node hp] at h
  exact (List.nodup_flatMap.mp (List.nodup_cons.mp h).2).1 i (List.mem_range.mpr hi)

theorem root_notMem_child {height p i : Nat} (h : (blocks fan mem (height + 1) p).Nodup)
    (hp : p ≠ 0) (hi : i < fan) : p ∉ blocks fan mem height (mem p i) := by
  rw [blocks_node hp] at h
  exact fun hmem =>
    (List.nodup_cons.mp h).1 (List.mem_flatMap.mpr ⟨i, List.mem_range.mpr hi, hmem⟩)

/-- Two of several lists that have nothing twice between them. -/
theorem flatMap_apart {f : Nat → List Nat} {i j b : Nat} (h : ((List.range fan).flatMap f).Nodup)
    (hi : i < fan) (hj : j < fan) (hne : i ≠ j) (hb : b ∈ f i) : b ∉ f j := by
  have hordered : ∀ {k l : Nat}, k < l → l < fan → List.Disjoint (f k) (f l) := by
    intro k l hkl hl
    have hget := List.pairwise_iff_getElem.mp (List.nodup_flatMap.mp h).2 k l (by simp; omega)
      (by simp; omega) hkl
    simpa using hget
  rcases Nat.lt_or_gt_of_ne hne with hlt | hgt
  · exact fun hb' => hordered hlt hj hb hb'
  · exact fun hb' => hordered hgt hi hb' hb

theorem children_apart {height p i j b : Nat} (h : (blocks fan mem (height + 1) p).Nodup)
    (hp : p ≠ 0) (hi : i < fan) (hj : j < fan) (hne : i ≠ j)
    (hb : b ∈ blocks fan mem height (mem p i)) : b ∉ blocks fan mem height (mem p j) := by
  rw [blocks_node hp] at h
  exact flatMap_apart (f := fun i => blocks fan mem height (mem p i)) (List.nodup_cons.mp h).2 hi hj
    hne hb

/-- Two paths do not lead to the same block. -/
theorem follow_injective {height p : Nat} {path path' : List Nat}
    (h : (blocks fan mem height p).Nodup) (hlength : path.length ≤ height)
    (hlength' : path'.length ≤ height) (hpath : ∀ i ∈ path, i < fan)
    (hpath' : ∀ i ∈ path', i < fan) (hne : follow mem path p ≠ 0)
    (heq : follow mem path p = follow mem path' p) : path = path' := by
  induction path generalizing height p path' with
  | nil =>
      cases path' with
      | nil => rfl
      | cons j path' =>
          have hp : p ≠ 0 := hne
          cases height with
          | zero => simp at hlength'
          | succ height =>
              have hj := hpath' j List.mem_cons_self
              simp only [follow, if_neg hp] at heq
              have hmem := follow_mem_blocks fan height (show path'.length ≤ height by
                  simpa using hlength') (fun i hi => hpath' i (List.mem_cons_of_mem _ hi))
                (heq ▸ hp)
              rw [← heq] at hmem
              exact absurd hmem (root_notMem_child h hp hj)
  | cons i path ih =>
      have hp : p ≠ 0 := by
        rintro rfl
        simp at hne
      cases height with
      | zero => simp at hlength
      | succ height =>
          have hi := hpath i List.mem_cons_self
          have hlen : path.length ≤ height := by simpa using hlength
          have hrest : ∀ k ∈ path, k < fan := fun k hk => hpath k (List.mem_cons_of_mem _ hk)
          simp only [follow, if_neg hp] at hne heq
          have hmem := follow_mem_blocks fan height hlen hrest hne
          cases path' with
          | nil =>
              simp only [follow] at heq
              rw [heq] at hmem
              exact absurd hmem (root_notMem_child h hp hi)
          | cons j path' =>
              have hj := hpath' j List.mem_cons_self
              have hlen' : path'.length ≤ height := by simpa using hlength'
              have hrest' : ∀ k ∈ path', k < fan :=
                fun k hk => hpath' k (List.mem_cons_of_mem _ hk)
              simp only [follow, if_neg hp] at heq
              have hmem' := follow_mem_blocks fan height hlen' hrest' (heq ▸ hne)
              obtain rfl : i = j := by
                by_contra hij
                exact children_apart h hp hi hj hij hmem (heq ▸ hmem')
              rw [ih (nodup_child h hp hi) hlen hlen' hrest hrest' hne heq]

/-- The end of a path that leads to the leaves is not an inner node. -/
theorem leaf_notMem_inner {height p : Nat} {path : List Nat}
    (h : (blocks fan mem height p).Nodup) (hlength : path.length = height)
    (hpath : ∀ i ∈ path, i < fan) (hne : follow mem path p ≠ 0) :
    follow mem path p ∉ inner fan mem height p := by
  induction path generalizing height p with
  | nil =>
      obtain rfl : height = 0 := hlength.symm
      exact List.not_mem_nil
  | cons i path ih =>
      obtain rfl : height = path.length + 1 := by simpa using hlength.symm
      have hp : p ≠ 0 := by
        rintro rfl
        simp at hne
      have hi := hpath i List.mem_cons_self
      have hrest : ∀ j ∈ path, j < fan := fun j hj => hpath j (List.mem_cons_of_mem _ hj)
      simp only [follow, if_neg hp] at hne ⊢
      have hmem := follow_mem_blocks fan path.length (Nat.le_refl _) hrest hne
      rw [inner_node hp, List.mem_cons, not_or]
      refine ⟨fun heq => ?_, fun hchild => ?_⟩
      · rw [heq] at hmem
        exact root_notMem_child h hp hi hmem
      obtain ⟨j, hj, hmem'⟩ := List.mem_flatMap.mp hchild
      have hj := List.mem_range.mp hj
      by_cases hij : i = j
      · subst hij
        exact ih (nodup_child h hp hi) rfl hrest hne hmem'
      · exact children_apart h hp hi hj hij hmem (inner_subset_blocks hmem')

/-! ## Replacing a child -/

/-- A list of lists of which one gets more elements. -/
theorem flatMap_perm_append {f f' : Nat → List Nat} {added : List Nat} {i : Nat} (hi : i < fan)
    (hchild : (f' i).Perm (added ++ f i)) (hothers : ∀ j < fan, j ≠ i → f' j = f j) :
    ((List.range fan).flatMap f').Perm (added ++ (List.range fan).flatMap f) := by
  obtain ⟨before, after, hrange⟩ := List.append_of_mem (List.mem_range.mpr hi)
  have hnodup : (i :: (before ++ after)).Nodup :=
    List.nodup_middle.mp (hrange ▸ List.nodup_range)
  have hsame : ∀ l : List Nat, (∀ j ∈ l, j ∈ before ++ after) → l.flatMap f' = l.flatMap f := by
    intro l hl
    refine List.flatMap_congr fun j hj => hothers j ?_ ?_
    · refine List.mem_range.mp (hrange ▸ ?_)
      rcases List.mem_append.mp (hl j hj) with hb | ha
      · exact List.mem_append_left _ hb
      · exact List.mem_append_right _ (List.mem_cons_of_mem _ ha)
    · rintro rfl
      exact (List.nodup_cons.mp hnodup).1 (hl j hj)
  rw [hrange, List.flatMap_append, List.flatMap_append, List.flatMap_cons, List.flatMap_cons,
    hsame before fun j hj => List.mem_append_left _ hj,
    hsame after fun j hj => List.mem_append_right _ hj]
  have hmoved : (before.flatMap f ++ (added ++ (f i ++ after.flatMap f))).Perm
      (added ++ (before.flatMap f ++ (f i ++ after.flatMap f))) :=
    List.perm_append_comm_assoc ..
  refine List.Perm.trans ?_ hmoved
  rw [← List.append_assoc added]
  exact (hchild.append_right _).append_left _

/-- A tree one child of which gets more blocks, while the others stay as they are. -/
theorem blocks_replace {height p i : Nat} {added : List Nat} (hp : p ≠ 0) (hi : i < fan)
    (hroot : ∀ j < fan, j ≠ i → mem' p j = mem p j)
    (hchild : (blocks fan mem' height (mem' p i)).Perm
      (added ++ blocks fan mem height (mem p i)))
    (hothers : ∀ j < fan, j ≠ i →
      blocks fan mem' height (mem p j) = blocks fan mem height (mem p j)) :
    (blocks fan mem' (height + 1) p).Perm (added ++ blocks fan mem (height + 1) p) := by
  rw [blocks_node hp, blocks_node hp]
  refine List.Perm.trans (List.Perm.cons p (flatMap_perm_append hi hchild ?_))
    List.perm_middle.symm
  intro j hj hne
  rw [hroot j hj hne, hothers j hj hne]

/-! ## The leaves below a block -/

/-- The blocks of a tree, each with the number of the first leaf below it, if the leaves are numbered
from `lo` on. -/
def spans (fan : Nat) (mem : Nat → Nat → Nat) : Nat → Nat → Nat → List (Nat × Nat)
  | 0, p, lo => if p = 0 then [] else [(p, lo)]
  | height + 1, p, lo =>
      if p = 0 then []
      else (p, lo) :: (List.range fan).flatMap fun i =>
        spans fan mem height (mem p i) (lo + i * fan ^ height)

/-- The number of the leaf at the end of a path. -/
def number (fan : Nat) : List Nat → Nat
  | [] => 0
  | i :: path => i * fan ^ path.length + number fan path

@[simp] theorem spans_null (height lo : Nat) : spans fan mem height 0 lo = [] := by
  cases height <;> simp [spans]

theorem spans_node {height p : Nat} (lo : Nat) (h : p ≠ 0) :
    spans fan mem (height + 1) p lo =
      (p, lo) :: (List.range fan).flatMap fun i =>
        spans fan mem height (mem p i) (lo + i * fan ^ height) :=
  if_neg h

theorem spans_map_fst (height p lo : Nat) :
    (spans fan mem height p lo).map Prod.fst = blocks fan mem height p := by
  induction height generalizing p lo with
  | zero =>
      by_cases hp : p = 0
      · simp [hp]
      · simp [spans, blocks, hp]
  | succ height ih =>
      by_cases hp : p = 0
      · simp [hp]
      · rw [spans_node lo hp, blocks_node hp, List.map_cons, List.map_flatMap]
        congr 1
        exact List.flatMap_congr fun i _ => ih (mem p i) (lo + i * fan ^ height)

/-- The leaves below a block are numbered in one range. -/
theorem spans_range {height p lo : Nat} {x : Nat × Nat} (hfan : 0 < fan)
    (hx : x ∈ spans fan mem height p lo) : lo ≤ x.2 ∧ x.2 < lo + fan ^ height := by
  induction height generalizing p lo with
  | zero =>
      by_cases hp : p = 0
      · simp [hp] at hx
      · simp only [spans, if_neg hp, List.mem_singleton] at hx
        subst hx
        simp
  | succ height ih =>
      by_cases hp : p = 0
      · simp [hp] at hx
      · rw [spans_node lo hp] at hx
        have hpos : 0 < fan ^ (height + 1) := Nat.pow_pos hfan
        rcases List.mem_cons.mp hx with rfl | hchild
        · exact ⟨Nat.le_refl _, by show lo < lo + fan ^ (height + 1); omega⟩
        · obtain ⟨i, hi, hmem⟩ := List.mem_flatMap.mp hchild
          obtain ⟨hlow, hhigh⟩ := ih hmem
          have hlast : (i + 1) * fan ^ height ≤ fan * fan ^ height :=
            Nat.mul_le_mul_right _ (List.mem_range.mp hi)
          rw [Nat.add_mul, Nat.one_mul] at hlast
          rw [Nat.pow_succ, Nat.mul_comm]
          omega

/-- The blocks of a tree are those at the ends of the paths into it, and each is paired with the
number of the first leaf that its path can be extended to. -/
theorem mem_spans {height p lo b n : Nat} :
    (b, n) ∈ spans fan mem height p lo ↔ ∃ path : List Nat, path.length ≤ height ∧
      (∀ i ∈ path, i < fan) ∧ follow mem path p = b ∧ b ≠ 0 ∧
      n = lo + number fan path * fan ^ (height - path.length) := by
  induction height generalizing p lo with
  | zero =>
      constructor
      · intro h
        by_cases hp : p = 0
        · simp [hp] at h
        · simp only [spans, if_neg hp, List.mem_singleton, Prod.mk.injEq] at h
          obtain ⟨rfl, rfl⟩ := h
          exact ⟨[], Nat.le_refl _, by simp, rfl, hp, by simp [number]⟩
      · rintro ⟨path, hlength, -, hfollow, hb, hn⟩
        obtain rfl := List.length_eq_zero_iff.mp (Nat.le_zero.mp hlength)
        obtain rfl : p = b := hfollow
        simp [spans, hb, hn, number]
  | succ height ih =>
      by_cases hp : p = 0
      · subst hp
        refine ⟨fun h => by simp at h, ?_⟩
        rintro ⟨path, -, -, hfollow, hb, -⟩
        rw [follow_null] at hfollow
        exact absurd hfollow.symm hb
      have hplace : ∀ (i : Nat) (path : List Nat), path.length ≤ height →
          lo + i * fan ^ height + number fan path * fan ^ (height - path.length) =
            lo + number fan (i :: path) * fan ^ (height + 1 - (i :: path).length) := by
        intro i path hlength
        have hrest : height + 1 - (i :: path).length = height - path.length := by
          rw [List.length_cons, Nat.add_sub_add_right]
        have hsplit : path.length + (height - path.length) = height := by omega
        rw [hrest, number, Nat.add_mul, Nat.mul_assoc, ← Nat.pow_add, hsplit, Nat.add_assoc]
      rw [spans_node lo hp, List.mem_cons, List.mem_flatMap]
      constructor
      · rintro (h | ⟨i, hi, h⟩)
        · obtain ⟨rfl, rfl⟩ := Prod.mk.inj h
          exact ⟨[], Nat.zero_le _, by simp, rfl, hp, by simp [number]⟩
        · obtain ⟨path, hlength, hpath, hfollow, hb, hn⟩ := ih.mp h
          refine ⟨i :: path, Nat.succ_le_succ hlength, ?_, ?_, hb, ?_⟩
          · rintro j (_ | ⟨_, hj⟩)
            · exact List.mem_range.mp hi
            · exact hpath j hj
          · rw [follow, if_neg hp, hfollow]
          · rw [hn, hplace i path hlength]
      · rintro ⟨path, hlength, hpath, hfollow, hb, hn⟩
        cases path with
        | nil =>
            left
            rw [hn, ← hfollow]
            simp [number, follow]
        | cons i path =>
            rw [follow, if_neg hp] at hfollow
            have hlength : path.length ≤ height := Nat.le_of_succ_le_succ hlength
            refine Or.inr ⟨i, List.mem_range.mpr (hpath i List.mem_cons_self), ih.mpr ⟨path, hlength,
              fun j hj => hpath j (List.mem_cons_of_mem _ hj), hfollow, hb, ?_⟩⟩
            rw [hn, hplace i path hlength]

theorem spans_congr {height p : Nat} (lo : Nat)
    (h : ∀ b ∈ inner fan mem height p, ∀ i < fan, mem' b i = mem b i) :
    spans fan mem' height p lo = spans fan mem height p lo := by
  induction height generalizing p lo with
  | zero => rfl
  | succ height ih =>
      by_cases hp : p = 0
      · simp [hp]
      · rw [spans_node lo hp, spans_node lo hp]
        congr 1
        refine List.flatMap_congr fun i hi => ?_
        have hlt := List.mem_range.mp hi
        rw [h p (by simp [inner_node hp]) i hlt]
        exact ih _ fun b hb => h b (child_mem_inner hp hlt hb)

theorem filter_spans_below {height p lo bound : Nat} (hfan : 0 < fan)
    (h : lo + fan ^ height ≤ bound) :
    (spans fan mem height p lo).filter (fun x => x.2 < bound) = spans fan mem height p lo := by
  refine List.filter_eq_self.mpr fun x hx => ?_
  have hrange := spans_range hfan hx
  simp only [decide_eq_true_eq]
  omega

theorem filter_spans_above {height p lo bound : Nat} (hfan : 0 < fan) (h : bound ≤ lo) :
    (spans fan mem height p lo).filter (fun x => x.2 < bound) = [] := by
  refine List.filter_eq_nil_iff.mpr fun x hx => ?_
  have hrange := spans_range hfan hx
  simp only [decide_eq_true_eq]
  omega

theorem number_lt {path : List Nat} (h : ∀ i ∈ path, i < fan) :
    number fan path < fan ^ path.length := by
  induction path with
  | nil => simp [number]
  | cons i path ih =>
      have hrest := ih fun j hj => h j (List.mem_cons_of_mem _ hj)
      have hi : (i + 1) * fan ^ path.length ≤ fan * fan ^ path.length :=
        Nat.mul_le_mul_right _ (h i List.mem_cons_self)
      rw [Nat.add_mul, Nat.one_mul] at hi
      rw [number, List.length_cons, Nat.pow_succ, Nat.mul_comm (fan ^ path.length) fan]
      omega

/-! ## Cutting a tree behind a leaf -/

/-- The first leaf that a path can be extended to is not behind the leaf of a longer path. -/
theorem number_prefix (fan : Nat) {place path : List Nat} (h : place <+: path) :
    number fan place * fan ^ (path.length - place.length) ≤ number fan path := by
  induction place generalizing path with
  | nil => simp [number]
  | cons i place ih =>
      cases path with
      | nil => simp at h
      | cons j path =>
          obtain ⟨rfl, hpre⟩ := List.cons_prefix_cons.mp h
          have hsplit : place.length + (path.length - place.length) = path.length := by
            have := hpre.length_le
            omega
          simp only [number, List.length_cons, Nat.add_sub_add_right]
          rw [Nat.add_mul, Nat.mul_assoc, ← Nat.pow_add, hsplit]
          exact Nat.add_le_add_left (ih hpre) _

theorem range_split {k : Nat} (hk : k < fan) :
    List.range fan = List.range k ++ k :: List.range' (k + 1) (fan - (k + 1)) := by
  have hcount : fan = k + (fan - (k + 1) + 1) := by omega
  rw [List.range_eq_range', List.range_eq_range', ← List.range'_succ]
  conv_lhs => rw [hcount, ← List.range'_append_1]
  rw [Nat.zero_add]

/-- The blocks of a tree from which no leaf up to a bound is reached: those of the child that the
bound falls into, and the children behind it. -/
theorem spans_behind {height p k r lo : Nat} (hp : p ≠ 0) (hk : k < fan) (hr : r < fan ^ height) :
    (spans fan mem (height + 1) p lo).filter (fun x => ¬ x.2 < lo + (k * fan ^ height + r) + 1) =
      (spans fan mem height (mem p k) (lo + k * fan ^ height)).filter
          (fun x => ¬ x.2 < lo + k * fan ^ height + r + 1) ++
        (List.range' (k + 1) (fan - (k + 1))).flatMap fun i =>
          spans fan mem height (mem p i) (lo + i * fan ^ height) := by
  have hfan : 0 < fan := by omega
  have hbound : lo + (k * fan ^ height + r) + 1 = lo + k * fan ^ height + r + 1 := by omega
  rw [spans_node lo hp, hbound, List.filter_cons_of_neg (by simp; omega), List.filter_flatMap,
    range_split hk, List.flatMap_append, List.flatMap_cons]
  have hbefore : ((List.range k).flatMap fun i =>
      (spans fan mem height (mem p i) (lo + i * fan ^ height)).filter
        fun x => ¬ x.2 < lo + k * fan ^ height + r + 1) = [] := by
    refine List.flatMap_eq_nil_iff.mpr fun i hi => List.filter_eq_nil_iff.mpr fun x hx => ?_
    have hrange := spans_range hfan hx
    have hlast : (i + 1) * fan ^ height ≤ k * fan ^ height :=
      Nat.mul_le_mul_right _ (List.mem_range.mp hi)
    rw [Nat.add_mul, Nat.one_mul] at hlast
    simp only [decide_not, Bool.not_eq_eq_eq_not, Bool.not_true, decide_eq_false_iff_not, not_not]
    omega
  rw [hbefore, List.nil_append]
  congr 1
  refine List.flatMap_congr fun i hi => List.filter_eq_self.mpr fun x hx => ?_
  have hrange := spans_range hfan hx
  have hfirst : (k + 1) * fan ^ height ≤ i * fan ^ height :=
    Nat.mul_le_mul_right _ (List.mem_range'_1.mp hi).1
  rw [Nat.add_mul, Nat.one_mul] at hfirst
  simp only [decide_not, Bool.not_eq_eq_eq_not, Bool.not_true, decide_eq_false_iff_not]
  omega

/-- A tree whose root keeps its pointers up to one of them, and whose child there has been cut. -/
theorem spans_cut {height p k r lo : Nat} (hp : p ≠ 0) (hk : k < fan) (hr : r < fan ^ height)
    (hroot : ∀ i < fan, mem' p i = if i ≤ k then mem p i else 0)
    (hbefore : ∀ i < k, ∀ b ∈ inner fan mem height (mem p i), ∀ j < fan, mem' b j = mem b j)
    (hcut : spans fan mem' height (mem p k) (lo + k * fan ^ height) =
      (spans fan mem height (mem p k) (lo + k * fan ^ height)).filter
        fun x => x.2 < lo + k * fan ^ height + r + 1) :
    spans fan mem' (height + 1) p lo =
      (spans fan mem (height + 1) p lo).filter
        fun x => x.2 < lo + (k * fan ^ height + r) + 1 := by
  have hfan : 0 < fan := by omega
  have hbound : lo + (k * fan ^ height + r) + 1 = lo + k * fan ^ height + r + 1 := by omega
  rw [spans_node lo hp, spans_node lo hp, hbound,
    List.filter_cons_of_pos (by simp only [decide_eq_true_eq]; omega), List.filter_flatMap]
  congr 1
  refine List.flatMap_congr fun i hi => ?_
  have hi := List.mem_range.mp hi
  rw [hroot i hi]
  rcases Nat.lt_trichotomy i k with hlt | rfl | hgt
  · have hlast : (i + 1) * fan ^ height ≤ k * fan ^ height := Nat.mul_le_mul_right _ hlt
    rw [Nat.add_mul, Nat.one_mul] at hlast
    rw [if_pos (Nat.le_of_lt hlt), spans_congr _ (hbefore i hlt),
      filter_spans_below hfan (by omega)]
  · rw [if_pos (Nat.le_refl i), hcut]
  · have hfirst : (k + 1) * fan ^ height ≤ i * fan ^ height := Nat.mul_le_mul_right _ hgt
    rw [Nat.add_mul, Nat.one_mul] at hfirst
    rw [if_neg (by omega), spans_null, filter_spans_above hfan (by omega)]

/-- The paths of such a tree. -/
theorem follow_cut {height p k r : Nat} (hp : p ≠ 0) (hr : r < fan ^ height)
    (hroot : ∀ i < fan, mem' p i = if i ≤ k then mem p i else 0)
    (hbefore : ∀ i < k, ∀ b ∈ inner fan mem height (mem p i), ∀ j < fan, mem' b j = mem b j)
    (hcut : ∀ path : List Nat, path.length = height → (∀ i ∈ path, i < fan) →
      follow mem' path (mem p k) = if number fan path ≤ r then follow mem path (mem p k) else 0)
    {path : List Nat} (hlength : path.length = height + 1) (hpath : ∀ i ∈ path, i < fan) :
    follow mem' path p =
      if number fan path ≤ k * fan ^ height + r then follow mem path p else 0 := by
  cases path with
  | nil => simp at hlength
  | cons i path =>
      have hlen : path.length = height := by simpa using hlength
      have hi := hpath i List.mem_cons_self
      have hrest : ∀ j ∈ path, j < fan := fun j hj => hpath j (List.mem_cons_of_mem _ hj)
      have hnumber := number_lt hrest
      rw [hlen] at hnumber
      simp only [follow, if_neg hp, number, hlen]
      rw [hroot i hi]
      rcases Nat.lt_trichotomy i k with hlt | rfl | hgt
      · have hlast : (i + 1) * fan ^ height ≤ k * fan ^ height := Nat.mul_le_mul_right _ hlt
        rw [Nat.add_mul, Nat.one_mul] at hlast
        rw [if_pos (Nat.le_of_lt hlt), if_pos (by omega)]
        exact follow_congr (Nat.le_of_eq hlen) hrest (hbefore i hlt)
      · rw [if_pos (Nat.le_refl i), hcut path hlen hrest]
        by_cases hle : number fan path ≤ r
        · rw [if_pos hle, if_pos (by omega)]
        · rw [if_neg hle, if_neg (by omega)]
      · have hfirst : (k + 1) * fan ^ height ≤ i * fan ^ height := Nat.mul_le_mul_right _ hgt
        rw [Nat.add_mul, Nat.one_mul] at hfirst
        rw [if_neg (by omega), if_neg (by omega), follow_null]

end DiscoBsd.Lib.Pointers
