import Mathlib.Data.List.Nodup
import Mathlib.Logic.Function.Basic

/-!
# Association lists with distinct keys

As long as no key occurs twice, a list of pairs is a finite map: the order does not matter, a
pair in front is an update and a pair left out makes its key absent.
-/

namespace DiscoBsd.Lib

variable {Key Value : Type*} [BEq Key] [LawfulBEq Key] {as bs : List (Key × Value)} {key : Key}
  {value : Value}

theorem lookup_cons_ne {k : Key} (h : key ≠ k) : ((k, value) :: as).lookup key = as.lookup key := by
  rw [List.lookup_cons, beq_eq_false_iff_ne.mpr h]

theorem lookup_eq_some_iff_mem (h : (as.map Prod.fst).Nodup) :
    as.lookup key = some value ↔ (key, value) ∈ as := by
  induction as with
  | nil => simp
  | cons pair as ih =>
      rw [List.map_cons, List.nodup_cons] at h
      obtain ⟨k, v⟩ := pair
      by_cases hkey : key = k
      · subst hkey
        have hnot : (key, value) ∉ as := fun hin => h.1 (List.mem_map.mpr ⟨_, hin, rfl⟩)
        simp [hnot, eq_comm]
      · rw [lookup_cons_ne hkey, ih h.2]
        simp [hkey]

theorem lookup_eq_none_of_not_mem (h : key ∉ as.map Prod.fst) : as.lookup key = none := by
  rw [List.lookup_eq_none_iff]
  intro pair hin
  have hne : key ≠ pair.1 := fun heq => h (List.mem_map.mpr ⟨pair, hin, heq.symm⟩)
  simpa using hne

theorem lookup_perm (hperm : as.Perm bs) (h : (as.map Prod.fst).Nodup) (key : Key) :
    as.lookup key = bs.lookup key := by
  have hbs : (bs.map Prod.fst).Nodup := (hperm.map Prod.fst).nodup_iff.mp h
  apply Option.ext
  intro value
  rw [lookup_eq_some_iff_mem h, lookup_eq_some_iff_mem hbs]
  exact hperm.mem_iff

omit [BEq Key] [LawfulBEq Key] in
theorem nodup_of_perm_cons (hperm : bs.Perm ((key, value) :: as)) :
    (bs.map Prod.fst).Nodup ↔ key ∉ as.map Prod.fst ∧ (as.map Prod.fst).Nodup := by
  rw [(hperm.map Prod.fst).nodup_iff, List.map_cons, List.nodup_cons]

theorem lookup_insert [DecidableEq Key] (hperm : bs.Perm ((key, value) :: as)) (h : (bs.map Prod.fst).Nodup) :
    (fun k => bs.lookup k) = Function.update (fun k => as.lookup k) key (some value) := by
  funext k
  rw [lookup_perm hperm h]
  by_cases hkey : k = key
  · subst hkey
    rw [Function.update_self, List.lookup_cons_self]
  · rw [Function.update_of_ne hkey, lookup_cons_ne hkey]

theorem lookup_erase [DecidableEq Key] (hperm : bs.Perm ((key, value) :: as)) (h : (bs.map Prod.fst).Nodup) :
    (fun k => as.lookup k) = Function.update (fun k => bs.lookup k) key none := by
  rw [lookup_insert hperm h, Function.update_idem]
  symm
  rw [Function.update_eq_self_iff]
  exact (lookup_eq_none_of_not_mem ((nodup_of_perm_cons hperm).mp h).1).symm

end DiscoBsd.Lib
