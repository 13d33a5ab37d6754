import Mathlib.Logic.Function.Basic
import Mathlib.Tactic.Common

/-!
# A plane of cells with integer addresses

What a list of writes, a forward copy and a list of in-place changes do to a plane, cell by cell.
-/

namespace DiscoBsd.Lib

variable {Value Key : Type*}

/-- The plane after writing each value at its address, in order. -/
def paint (plane : Int → Value) (dots : List (Int × Value)) : Int → Value :=
  dots.foldl (fun plane dot => Function.update plane dot.1 dot.2) plane

/-- The plane after copying `n` cells one by one, the lowest address first. -/
def copyForward (plane : Int → Value) (dst src : Int) : Nat → Int → Value
  | 0 => plane
  | n + 1 =>
      Function.update (copyForward plane dst src n) (dst + n)
        (copyForward plane dst src n (src + n))

/-- The plane after applying a function at each address, in order. -/
def touch (f : Value → Value) (plane : Int → Value) (addresses : List Int) : Int → Value :=
  addresses.foldl (fun plane a => Function.update plane a (f (plane a))) plane

theorem paint_cons (plane : Int → Value) (a : Int) (v : Value) (dots : List (Int × Value)) :
    paint plane ((a, v) :: dots) = paint (Function.update plane a v) dots := rfl

theorem touch_cons (f : Value → Value) (plane : Int → Value) (a : Int) (addresses : List Int) :
    touch f plane (a :: addresses) = touch f (Function.update plane a (f (plane a))) addresses := rfl

theorem paint_of_not_mem {dots : List (Int × Value)} {a : Int} (plane : Int → Value)
    (h : a ∉ dots.map Prod.fst) : paint plane dots a = plane a := by
  induction dots generalizing plane with
  | nil => rfl
  | cons dot dots ih =>
      rw [List.map_cons, List.mem_cons, not_or] at h
      rw [paint_cons, ih _ h.2, Function.update_of_ne h.1]

/-- Where addresses are distinct, each has the value written for it. -/
theorem paint_map {keys : List Key} {address : Key → Int} {value : Key → Value} {key : Key}
    (plane : Int → Value) (hinj : ∀ k ∈ keys, address k = address key → k = key)
    (hmem : key ∈ keys) :
    paint plane (keys.map fun k => (address k, value k)) (address key) = value key := by
  induction keys generalizing plane with
  | nil => exact absurd hmem List.not_mem_nil
  | cons k keys ih =>
      have hrest := fun j hj => hinj j (List.mem_cons_of_mem _ hj)
      by_cases hlater : key ∈ keys
      · exact ih _ hrest hlater
      · have hkey : key = k := (List.mem_cons.mp hmem).resolve_right hlater
        have hout : address key ∉ (keys.map fun k => (address k, value k)).map Prod.fst := by
          intro hin
          rw [List.map_map] at hin
          obtain ⟨j, hj, haddress⟩ := List.mem_map.mp hin
          exact hlater (hrest j hj haddress ▸ hj)
        rw [List.map_cons, paint_cons, paint_of_not_mem _ hout, hkey, Function.update_self]

/-- Where every write is of one value, an address has that value or the old one. -/
theorem paint_const {keys : List Key} {address : Key → Int} {value : Value} {a : Int}
    (plane : Int → Value) (h : a ∈ keys.map address → plane a = value) :
    paint plane (keys.map fun k => (address k, value)) a = plane a := by
  induction keys generalizing plane with
  | nil => rfl
  | cons k keys ih =>
      rw [List.map_cons, List.mem_cons] at h
      rw [List.map_cons, paint_cons]
      have hupdate : Function.update plane (address k) value a = plane a := by
        by_cases ha : a = address k
        · rw [ha, Function.update_self, ← ha, h (.inl ha)]
        · rw [Function.update_of_ne ha]
      rw [ih, hupdate]
      intro hmem
      rw [hupdate, h (.inr hmem)]

/-- A forward copy to a lower address reads what was there before. -/
theorem copyForward_apply {dst src : Int} (h : dst ≤ src) (plane : Int → Value) (n : Nat) (a : Int) :
    copyForward plane dst src n a =
      if dst ≤ a ∧ a < dst + n then plane (a - dst + src) else plane a := by
  induction n generalizing a with
  | zero =>
      rw [if_neg (by omega)]
      rfl
  | succ n ih =>
      rw [copyForward]
      by_cases ha : a = dst + n
      · rw [ha, Function.update_self, ih, if_neg (by omega), if_pos (by omega)]
        congr 1
        omega
      · rw [Function.update_of_ne ha, ih]
        by_cases hin : dst ≤ a ∧ a < dst + n
        · rw [if_pos hin, if_pos (by omega)]
        · rw [if_neg hin, if_neg (by omega)]

theorem touch_of_not_mem {addresses : List Int} {a : Int} (f : Value → Value) (plane : Int → Value)
    (h : a ∉ addresses) : touch f plane addresses a = plane a := by
  induction addresses generalizing plane with
  | nil => rfl
  | cons b addresses ih =>
      rw [List.mem_cons, not_or] at h
      rw [touch_cons, ih _ h.2, Function.update_of_ne h.1]

theorem touch_of_mem {addresses : List Int} {a : Int} (f : Value → Value) (plane : Int → Value)
    (hnodup : addresses.Nodup) (h : a ∈ addresses) : touch f plane addresses a = f (plane a) := by
  induction addresses generalizing plane with
  | nil => exact absurd h List.not_mem_nil
  | cons b addresses ih =>
      rw [List.nodup_cons] at hnodup
      by_cases hlater : a ∈ addresses
      · have hne : a ≠ b := fun heq => hnodup.1 (heq ▸ hlater)
        rw [touch_cons, ih _ hnodup.2 hlater, Function.update_of_ne hne]
      · have ha : a = b := (List.mem_cons.mp h).resolve_right hlater
        rw [ha] at hlater ⊢
        rw [touch_cons, touch_of_not_mem f _ hlater, Function.update_self]

theorem touch_touch {f : Value → Value} (hf : ∀ v, f (f v) = v) (plane : Int → Value)
    {addresses : List Int} (hnodup : addresses.Nodup) :
    touch f (touch f plane addresses) addresses = plane := by
  funext a
  by_cases ha : a ∈ addresses
  · rw [touch_of_mem f _ hnodup ha, touch_of_mem f _ hnodup ha, hf]
  · rw [touch_of_not_mem f _ ha, touch_of_not_mem f _ ha]

end DiscoBsd.Lib
