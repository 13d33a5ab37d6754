import DiscoBsd.Asm.Assemble
import Mathlib.Data.Nat.Digits.Defs

/-!
# What a name refers to

The symbol tables of `as_arm.c` keep a compiler label under its number and every other name under
its text. A lookup does not see the difference: `find_symDefine` says that defining a label
changes what that name refers to and nothing else, and the other operations on the tables change
no lookup at all.
-/

namespace DiscoBsd.Asm

/-! ## Label numbers -/

/-- The value of a decimal digit. -/
def digitVal (c : Char) : Nat := c.toNat - 48

theorem digitVal_lt {c : Char} (h : isdigit c = true) : digitVal c < 10 := by
  simp only [isdigit, Bool.and_eq_true, decide_eq_true_eq] at h
  simp only [digitVal]
  omega

theorem digitVal_inj {c d : Char} (hc : isdigit c = true) (hd : isdigit d = true)
    (h : digitVal c = digitVal d) : c = d := by
  simp only [isdigit, Bool.and_eq_true, decide_eq_true_eq] at hc hd
  simp only [digitVal] at h
  exact Char.toNat_inj.mp (by omega)

theorem labelDigits_eq {v r : Nat} {n : Text} (h : labelDigits v n = some r) :
    n.all isdigit = true ∧ r = v * 10 ^ n.length + Nat.ofDigits 10 (n.map digitVal).reverse := by
  induction n generalizing v with
  | nil =>
    simp only [labelDigits, Option.some.injEq] at h
    simp [h]
  | cons c n ih =>
    simp only [labelDigits] at h
    split at h
    · rename_i hc
      obtain ⟨hall, hr⟩ := ih h
      refine ⟨by simp [hc.1, hall], ?_⟩
      rw [hr]
      simp only [List.map_cons, List.reverse_cons, Nat.ofDigits_append, List.length_reverse,
        List.length_map, Nat.ofDigits_singleton, List.length_cons, digitVal, pow_succ]
      ring
    · cases h

/-- The digits of a label name are those of its number, but for a single zero. -/
theorem numlabel_eq {n : Text} {v : Nat} (h : numlabel n = some v) :
    ∃ ds, n = '.' :: 'L' :: ds ∧ ds.all isdigit = true ∧
      (v = 0 ∧ ds = ['0'] ∨ v ≠ 0 ∧ Nat.digits 10 v = (ds.map digitVal).reverse) := by
  unfold numlabel at h
  split at h
  · simp only [Option.some.injEq] at h
    exact ⟨['0'], rfl, by decide, .inl ⟨h.symm, rfl⟩⟩
  · cases h
  · rename_i c n hzero hzeros
    split at h
    · rename_i hc
      obtain ⟨hall, hv⟩ := labelDigits_eq h
      simp only [zero_mul, zero_add] at hv
      have hne : c ≠ '0' := by
        intro h0
        cases n with
        | nil => exact hzero h0 rfl
        | cons d n => exact hzeros h0
      have hlast : digitVal c ≠ 0 := fun h0 => hne (digitVal_inj hc (by decide) h0)
      have hdigits : Nat.digits 10 v = ((c :: n).map digitVal).reverse := by
        rw [hv]
        refine Nat.digits_ofDigits 10 (by decide) _ (fun d hd => ?_) fun hd => ?_
        · simp only [List.mem_reverse, List.mem_map] at hd
          obtain ⟨e, he, rfl⟩ := hd
          exact digitVal_lt (List.all_eq_true.mp hall e he)
        · simpa using hlast
      refine ⟨c :: n, rfl, hall, .inr ⟨?_, hdigits⟩⟩
      rintro rfl
      simp at hdigits
    · cases h
  · cases h

theorem map_digitVal_inj {ds es : Text} (hd : ds.all isdigit = true) (he : es.all isdigit = true)
    (h : ds.map digitVal = es.map digitVal) : ds = es := by
  induction ds generalizing es with
  | nil => simpa [eq_comm] using h
  | cons c ds ih =>
    cases es with
    | nil => simp at h
    | cons e es =>
      simp only [List.all_cons, Bool.and_eq_true] at hd he
      simp only [List.map_cons, List.cons.injEq] at h
      rw [digitVal_inj hd.1 he.1 h.1, ih hd.2 he.2 h.2]

/-- A label number belongs to one name. -/
theorem numlabel_inj {m n : Text} {v : Nat} (hm : numlabel m = some v) (hn : numlabel n = some v) :
    m = n := by
  obtain ⟨ds, rfl, hds, hdv⟩ := numlabel_eq hm
  obtain ⟨es, rfl, hes, hev⟩ := numlabel_eq hn
  have hdigits : ds = es := by
    obtain ⟨hv, hd⟩ | ⟨hv, hd⟩ := hdv
    · obtain ⟨-, he⟩ | ⟨he, -⟩ := hev
      · rw [hd, he]
      · exact absurd hv he
    · obtain ⟨he, -⟩ | ⟨-, he⟩ := hev
      · exact absurd he hv
      · rw [hd] at he
        exact map_digitVal_inj hds hes (List.reverse_injective he)
  rw [hdigits]

/-- The section and address of a symbol that is defined. -/
def Sym.place (y : Sym) : Option (Sec × Nat) := if y.defined then some (y.sec, y.addr) else none

/-- Changing the first symbol of a name changes only what is found under that name. -/
theorem find_modify {l : List Sym} {f : Sym → Sym} (hf : ∀ y, (f y).name = y.name) {n : Text}
    {i : Nat} (hi : l.findIdx? (·.name == n) = some i) (m : Text) :
    (l.modify i f).find? (·.name == m) =
      if m = n then (l.find? (·.name == n)).map f else l.find? (·.name == m) := by
  induction l generalizing i with
  | nil => simp at hi
  | cons y l ih =>
    rw [List.findIdx?_cons] at hi
    split at hi
    · rename_i hy
      obtain rfl := Option.some.inj hi
      rw [beq_iff_eq] at hy
      by_cases hm : m = n
      · simp [hm, hf, hy]
      · simp [hm, hf, hy, Ne.symm hm]
    · rename_i hy
      rw [Option.map_eq_some_iff] at hi
      obtain ⟨j, hj, rfl⟩ := hi
      rw [List.modify_succ_cons, List.find?_cons, List.find?_cons, List.find?_cons, ih hj]
      rw [Bool.not_eq_true] at hy
      rw [hy]
      by_cases hm : m = n
      · rw [hm, hy]
      · simp only [if_neg hm]

namespace Symbols

variable {t : Symbols}

/-! ## Lookups -/

/-- The section and address a name stands for, when it is defined. -/
def find (t : Symbols) (n : Text) : Option (Sec × Nat) := (t.symRef n).bind t.place

theorem findLabelAddr_eq (n : Text) : t.findLabelAddr n = (t.find n).map Prod.snd := rfl

theorem find_of_label {n : Text} {v : Nat} (h : t.labelFind n = some v) : t.find n = t.lab v := by
  simp [find, symRef, h, place]

theorem find_of_named {n : Text} (h : t.labelFind n = none) :
    t.find n = (t.syms.find? (·.name == n)).bind Sym.place := by
  rw [List.find?_eq_bind_findIdx?_getElem?]
  simp only [find, symRef, h, namedFind]
  cases hi : t.syms.findIdx? (·.name == n) with
  | none => rfl
  | some i =>
    simp only [Option.map_some, Option.bind_some, place]
    cases t.syms[i]? <;> rfl

theorem labelFind_eq_some_iff {n : Text} {v : Nat} :
    t.labelFind n = some v ↔ numlabel n = some v ∧ (t.lab v).isSome = true := by
  simp [labelFind, Option.filter_eq_some_iff]

theorem lab_eq_none_of_labelFind {n : Text} {v : Nat} (h : t.labelFind n = none)
    (hv : numlabel n = some v) : t.lab v = none := by
  by_contra hlab
  rw [labelFind_eq_some_iff.mpr ⟨hv, Option.isSome_iff_ne_none.mpr hlab⟩] at h
  cases h

/-- Tables with the same label and the same symbol under a name look that name up alike. -/
theorem find_congr {t' : Symbols} {n : Text}
    (hlab : ∀ v, numlabel n = some v → t'.lab v = t.lab v)
    (hsym : (t'.syms.find? (·.name == n)).bind Sym.place =
      (t.syms.find? (·.name == n)).bind Sym.place) : t'.find n = t.find n := by
  have hfind : t'.labelFind n = t.labelFind n := by
    cases hv : numlabel n with
    | none => simp [labelFind, hv]
    | some v => simp [labelFind, hv, Option.filter, hlab v hv]
  cases hn : t.labelFind n with
  | some v =>
    rw [find_of_label hn, find_of_label (hfind.trans hn), hlab v (labelFind_eq_some_iff.mp hn).1]
  | none => rw [find_of_named hn, find_of_named (hfind.trans hn), hsym]

/-- A new name is undefined, so no lookup changes. -/
theorem find_namedGet (t : Symbols) (m n : Text) : (t.namedGet n).1.find m = t.find m := by
  simp only [namedGet]
  split
  · rfl
  · refine find_congr (fun _ _ => rfl) ?_
    rw [List.find?_append]
    cases hm : t.syms.find? (·.name == m) with
    | some y => rfl
    | none =>
      simp only [Option.none_or, List.find?_singleton, Option.bind_none]
      split <;> rfl

theorem find_symRefNew (t : Symbols) (m n : Text) : (t.symRefNew n).1.find m = t.find m := by
  simp only [symRefNew]
  split
  · rfl
  · exact find_namedGet t m n

theorem namedFind_namedGet (t : Symbols) (n : Text) :
    (t.namedGet n).1.namedFind n = some (t.namedGet n).2 := by
  simp only [namedGet]
  split
  · assumption
  · rename_i h
    simp only [namedFind] at h ⊢
    rw [List.findIdx?_append, h]
    simp

theorem namedGet_lab (t : Symbols) (n : Text) : (t.namedGet n).1.lab = t.lab := by
  simp only [namedGet]
  split <;> rfl

/-! ## Defining a name -/

/-- No name is in both tables. -/
def Disjoint (t : Symbols) : Prop :=
  ∀ y ∈ t.syms, ∀ v, numlabel y.name = some v → t.lab v = none

theorem mem_of_namedFind {n : Text} {i : Nat} (h : t.namedFind n = some i) :
    ∃ y ∈ t.syms, y.name = n := by
  obtain ⟨hi, hn, -⟩ := List.findIdx?_eq_some_iff_getElem.mp h
  exact ⟨_, List.getElem_mem hi, beq_iff_eq.mp hn⟩

theorem not_mem_of_namedFind {n : Text} (h : t.namedFind n = none) : ∀ y ∈ t.syms, y.name ≠ n := by
  intro y hy
  simpa using List.findIdx?_eq_none_iff.mp h y hy

/-- A name that is among the symbols is not found as a label. -/
theorem Disjoint.labelFind_eq_none (h : t.Disjoint) {n : Text} {i : Nat}
    (hn : t.namedFind n = some i) : t.labelFind n = none := by
  obtain ⟨y, hy, rfl⟩ := mem_of_namedFind hn
  cases hv : t.labelFind y.name with
  | none => rfl
  | some v =>
    obtain ⟨hnum, hlab⟩ := labelFind_eq_some_iff.mp hv
    rw [h y hy v hnum] at hlab
    cases hlab

theorem Disjoint.namedGet (h : t.Disjoint) {n : Text}
    (hn : t.namedFind n = none → ∀ v, numlabel n = some v → t.lab v = none) :
    (t.namedGet n).1.Disjoint := by
  simp only [Symbols.namedGet]
  split
  · exact h
  · rename_i hnone
    intro y hy v hv
    simp only [List.mem_append, List.mem_singleton] at hy
    obtain hy | rfl := hy
    · exact h y hy v hv
    · exact hn hnone v hv

theorem Disjoint.modify (h : t.Disjoint) (i : Nat) {f : Sym → Sym}
    (hf : ∀ y, (f y).name = y.name) : Disjoint ⟨t.syms.modify i f, t.lab⟩ := by
  intro y hy v hv
  obtain ⟨j, hj⟩ := List.mem_iff_getElem?.mp hy
  simp only [List.getElem?_modify] at hj
  cases hz : t.syms[j]? with
  | none => simp [hz] at hj
  | some z =>
    have hname : y.name = z.name := by
      simp only [hz, Option.map_eq_map, Option.map_some, Option.some.injEq] at hj
      split at hj
      · rw [← hj, hf]
      · rw [← hj]
    rw [hname] at hv
    exact h z (List.mem_of_getElem? hz) v hv

theorem symDefine_label {n : Text} {v : Nat} (hv : numlabel n = some v)
    (hn : t.namedFind n = none) (sec : Sec) (off : Nat) :
    t.symDefine n sec off = ⟨t.syms, Function.update t.lab v (some (sec, off))⟩ := by
  simp [symDefine, hv, hn]

theorem symDefine_named {n : Text} (h : numlabel n = none ∨ ∃ i, t.namedFind n = some i) (sec : Sec)
    (off : Nat) :
    t.symDefine n sec off =
      ⟨(t.namedGet n).1.syms.modify (t.namedGet n).2 (Sym.define sec off), t.lab⟩ := by
  rw [← namedGet_lab t n]
  obtain h | ⟨i, h⟩ := h
  · simp [symDefine, h]
  · cases hv : numlabel n <;> simp [symDefine, hv, h]

theorem Disjoint.symDefine (h : t.Disjoint) (n : Text) (sec : Sec) (off : Nat) :
    (t.symDefine n sec off).Disjoint := by
  by_cases hcase : numlabel n = none ∨ ∃ i, t.namedFind n = some i
  · rw [symDefine_named hcase]
    have hget : (t.namedGet n).1.Disjoint := by
      refine h.namedGet fun hnone v hv => ?_
      obtain hnum | ⟨i, hi⟩ := hcase
      · rw [hnum] at hv
        cases hv
      · rw [hnone] at hi
        cases hi
    have hmod := hget.modify (t.namedGet n).2 (f := Sym.define sec off) fun _ => rfl
    rwa [namedGet_lab] at hmod
  · push Not at hcase
    obtain ⟨v, hv⟩ := Option.ne_none_iff_exists'.mp hcase.1
    have hnone : t.namedFind n = none := Option.eq_none_iff_forall_ne_some.mpr hcase.2
    rw [symDefine_label hv hnone]
    intro y hy w hw
    have hne : w ≠ v := by
      rintro rfl
      exact not_mem_of_namedFind hnone y hy (numlabel_inj hw hv)
    simpa [hne] using h y hy w hw

/-- After a definition the name stands for the new place, and no other name is touched. -/
theorem find_symDefine (h : t.Disjoint) (n : Text) (sec : Sec) (off : Nat) (m : Text) :
    (t.symDefine n sec off).find m = if m = n then some (sec, off) else t.find m := by
  by_cases hcase : numlabel n = none ∨ ∃ i, t.namedFind n = some i
  · rw [symDefine_named hcase]
    have hmod := find_modify (f := Sym.define sec off) (fun _ => rfl) (namedFind_namedGet t n) m
    split
    · rename_i hm
      rw [if_pos hm] at hmod
      subst hm
      have hlab : t.labelFind m = none := by
        obtain hnum | ⟨i, hi⟩ := hcase
        · simp [labelFind, hnum]
        · exact h.labelFind_eq_none hi
      have hfind := namedFind_namedGet t m
      obtain ⟨y, hy⟩ : ∃ y, (t.namedGet m).1.syms.find? (·.name == m) = some y := by
        obtain ⟨z, hz, hzm⟩ := mem_of_namedFind hfind
        rw [← Option.isSome_iff_exists, List.find?_isSome]
        exact ⟨z, hz, by simpa using hzm⟩
      have hlab' : labelFind ⟨(t.namedGet m).1.syms.modify (t.namedGet m).2 (Sym.define sec off),
          t.lab⟩ m = none := hlab
      rw [find_of_named hlab']
      simp [hmod, hy, Sym.place, Sym.define]
    · rename_i hm
      rw [if_neg hm] at hmod
      rw [← find_namedGet t m n]
      exact find_congr (fun v _ => by rw [namedGet_lab]) (by rw [hmod])
  · push Not at hcase
    obtain ⟨v, hv⟩ := Option.ne_none_iff_exists'.mp hcase.1
    have hnone : t.namedFind n = none := Option.eq_none_iff_forall_ne_some.mpr hcase.2
    rw [symDefine_label hv hnone]
    split
    · rename_i hm
      subst hm
      rw [find_of_label (v := v) (labelFind_eq_some_iff.mpr ⟨hv, by simp⟩)]
      simp
    · rename_i hm
      refine find_congr (fun w hw => ?_) rfl
      have hne : w ≠ v := by
        rintro rfl
        exact hm (numlabel_inj hw hv)
      simp [hne]

/-! ## The other operations -/

/-- A name made global keeps its place. -/
theorem find_globl {t' : Symbols} {n : Text} (h : t.globl n = .ok t') (m : Text) :
    t'.find m = t.find m := by
  simp only [globl] at h
  split at h
  · cases h
  · obtain rfl := Except.ok.inj h
    rw [← find_namedGet t m n]
    refine find_congr (fun _ _ => rfl) ?_
    rw [find_modify (f := Sym.globalize) (fun _ => rfl) (namedFind_namedGet t n) m]
    split
    · rename_i hm
      rw [hm]
      cases (t.namedGet n).1.syms.find? (·.name == n) <;> rfl
    · rfl

theorem Disjoint.globl {t' : Symbols} {n : Text} (h : t.Disjoint) (hg : t.globl n = .ok t') :
    t'.Disjoint := by
  simp only [Symbols.globl] at hg
  split at hg
  · cases hg
  · rename_i hnone
    obtain rfl := Except.ok.inj hg
    exact Disjoint.modify (h.namedGet fun _ v hv => lab_eq_none_of_labelFind hnone hv) _
      fun _ => rfl

theorem Disjoint.symRefNew (h : t.Disjoint) (n : Text) : (t.symRefNew n).1.Disjoint := by
  simp only [Symbols.symRefNew]
  split
  · exact h
  · rename_i hnone
    exact h.namedGet fun _ v hv => lab_eq_none_of_labelFind hnone hv

theorem Disjoint.rebase (h : t.Disjoint) (base : Sec → Nat) : (t.rebase base).Disjoint := by
  intro y hy v hv
  simp only [Symbols.rebase, List.mem_map] at hy
  obtain ⟨z, hz, rfl⟩ := hy
  have hname : (Sym.rebase base z).name = z.name := by
    simp only [Sym.rebase]
    split <;> rfl
  rw [hname] at hv
  simp [Symbols.rebase, h z hz v hv]

/-- With the section bases added every name keeps its section. -/
theorem find_rebase (t : Symbols) (base : Sec → Nat) (n : Text) :
    (t.rebase base).find n = (t.find n).map fun p => (p.1, p.2 + base p.1) := by
  have hfind : (t.rebase base).labelFind n = t.labelFind n := by
    cases hv : numlabel n with
    | none => simp [labelFind, hv]
    | some v => simp [labelFind, hv, Option.filter, rebase]
  cases hn : t.labelFind n with
  | some v => rw [find_of_label hn, find_of_label (hfind.trans hn), rebase]
  | none =>
    rw [find_of_named hn, find_of_named (hfind.trans hn), rebase, List.find?_map]
    have hname : (fun y : Sym => y.name == n) ∘ Sym.rebase base = fun y => y.name == n := by
      funext y
      simp only [Function.comp_apply, Sym.rebase]
      split <;> rfl
    rw [hname]
    cases t.syms.find? (·.name == n) with
    | none => rfl
    | some y => cases hy : y.defined <;> simp [Sym.place, Sym.rebase, hy]

end Symbols

end DiscoBsd.Asm
