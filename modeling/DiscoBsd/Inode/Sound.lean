import DiscoBsd.Inode.Table
import Mathlib.Data.Fintype.Card

/-!
# The lists of the inode table

`Table.Sound` says that the hash chains hold the slots of their hash value, no two of them for the same
inode, that a slot on no chain is linked to itself, and that the free list holds exactly the slots
without references. Each piece of the code keeps it.
-/

namespace DiscoBsd.Inode

open DiscoBsd.Lib

variable {n : Nat}

/-- The lists that the pointers of a table make up. -/
structure Table.Lists (t : Table n) (chains : Fin INOHSZ → List (Fin n)) (free : List (Fin n)) :
    Prop where
  chain : Chains t.chain chains
  home : ∀ ih, ∀ ip ∈ chains ih, INOHASH (t.slot ip).i_dev (t.slot ip).i_number = ih
  unique : ∀ ih, ∀ ip ∈ chains ih, ∀ jp ∈ chains ih, (t.slot ip).i_dev = (t.slot jp).i_dev →
    (t.slot ip).i_number = (t.slot jp).i_number → ip = jp
  avail : t.free.Lists free
  count : ∀ ip, ip ∈ free ↔ (t.slot ip).i_count = 0

def Table.Sound (t : Table n) : Prop := ∃ chains free, t.Lists chains free

namespace Table

variable {t : Table n} {chains : Fin INOHSZ → List (Fin n)} {free : List (Fin n)} {ip jp : Fin n}

theorem modify_self (t : Table n) (ip : Fin n) (f : Slot → Slot) :
    (t.modify ip f).slot ip = f (t.slot ip) :=
  Function.update_self ..

theorem modify_of_ne (t : Table n) (h : jp ≠ ip) (f : Slot → Slot) :
    (t.modify ip f).slot jp = t.slot jp :=
  Function.update_of_ne h ..

/-! ## Searching -/

theorem Lists.onChain_eq (h : t.Lists chains free) (ih : Fin INOHSZ) : t.onChain ih = chains ih := by
  have hlength : (chains ih).length ≤ n := by
    have := (h.chain.rings.nodup ih).length_le_card
    rwa [Fintype.card_fin] at this
  exact (h.chain.rings.path ih).walk_eq hlength

/-- A slot stands for an inode when it is on a chain with its device and number. -/
def Stands (t : Table n) (ip : Fin n) (dev ino : Nat) : Prop :=
  ip ∈ t.onChain (INOHASH dev ino) ∧ (t.slot ip).i_dev = dev ∧ (t.slot ip).i_number = ino

theorem Lists.ifind_eq_some (h : t.Lists chains free) {dev ino : Nat} :
    t.ifind dev ino = some ip ↔ t.Stands ip dev ino := by
  have hmatch : ∀ jp, t.isFor dev ino jp = true ↔
      (t.slot jp).i_dev = dev ∧ (t.slot jp).i_number = ino := by
    intro jp
    rw [isFor, Bool.and_eq_true, decide_eq_true_eq, decide_eq_true_eq]
    exact and_comm
  constructor
  · intro hfind
    exact ⟨List.mem_of_find?_eq_some hfind, (hmatch ip).mp (List.find?_some hfind)⟩
  · rintro ⟨hmem, hdev, hino⟩
    cases hfind : t.ifind dev ino with
    | none =>
        have hnone := List.find?_eq_none.mp hfind ip hmem
        exact absurd ((hmatch ip).mpr ⟨hdev, hino⟩) hnone
    | some jp =>
        have hjp := (hmatch jp).mp (List.find?_some hfind)
        have hjpMem := List.mem_of_find?_eq_some hfind
        rw [h.onChain_eq] at hmem hjpMem
        rw [h.unique _ jp hjpMem ip hmem (hjp.1.trans hdev.symm) (hjp.2.trans hino.symm)]

theorem Lists.ifind_eq_none (h : t.Lists chains free) {dev ino : Nat} :
    t.ifind dev ino = none ↔ ∀ ip, ¬ t.Stands ip dev ino := by
  constructor
  · intro hnone ip hstands
    rw [h.ifind_eq_some.mpr hstands] at hnone
    cases hnone
  · intro hnone
    cases hfind : t.ifind dev ino with
    | none => rfl
    | some ip => exact absurd (h.ifind_eq_some.mp hfind) (hnone ip)

/-! ## Edits -/

/-- A change that leaves the chains and the inodes of the slots alone. -/
theorem Lists.edit {t' : Table n} {free' : List (Fin n)} (h : t.Lists chains free)
    (hchain : t'.chain = t.chain)
    (hslot : ∀ jp, (t'.slot jp).i_dev = (t.slot jp).i_dev ∧
      (t'.slot jp).i_number = (t.slot jp).i_number)
    (havail : t'.free.Lists free') (hcount : ∀ jp, jp ∈ free' ↔ (t'.slot jp).i_count = 0) :
    t'.Lists chains free' := by
  refine ⟨hchain ▸ h.chain, fun ih jp hjp => ?_, fun ih jp hjp jp' hjp' => ?_, havail, hcount⟩
  · rw [(hslot jp).1, (hslot jp).2]
    exact h.home ih jp hjp
  · rw [(hslot jp).1, (hslot jp).2, (hslot jp').1, (hslot jp').2]
    exact h.unique ih jp hjp jp' hjp'

/-- A change of a slot that leaves its inode alone, and whether it has references. -/
theorem Lists.modify (h : t.Lists chains free) {f : Slot → Slot}
    (hdev : (f (t.slot ip)).i_dev = (t.slot ip).i_dev)
    (hnumber : (f (t.slot ip)).i_number = (t.slot ip).i_number)
    (hcount : (f (t.slot ip)).i_count = 0 ↔ (t.slot ip).i_count = 0) :
    (t.modify ip f).Lists chains free := by
  refine h.edit rfl (fun jp => ?_) h.avail fun jp => ?_
  · by_cases heq : jp = ip
    · rw [heq, modify_self]
      exact ⟨hdev, hnumber⟩
    · rw [modify_of_ne t heq]
      exact ⟨rfl, rfl⟩
  · rw [h.count jp]
    by_cases heq : jp = ip
    · rw [heq, modify_self]
      exact hcount.symm
    · rw [modify_of_ne t heq]

theorem Lists.grab (h : t.Lists chains free) (ip : Fin n) : (t.grab ip).Sound := by
  rw [Table.grab]
  split
  · rename_i hzero
    refine ⟨chains, free.erase ip, h.edit rfl (fun jp => ?_) ?_ fun jp => ?_⟩
    · by_cases heq : jp = ip
      · rw [heq, modify_self]
        exact ⟨rfl, rfl⟩
      · rw [modify_of_ne _ heq]
        exact ⟨rfl, rfl⟩
    · exact h.avail.remove ((h.count ip).mpr hzero)
    · by_cases heq : jp = ip
      · rw [heq, modify_self]
        exact iff_of_false h.avail.nodup.not_mem_erase (Nat.succ_ne_zero _)
      · rw [modify_of_ne _ heq, List.mem_erase_of_ne heq]
        exact h.count jp
  · rename_i hcount
    exact ⟨chains, free, h.modify rfl rfl (iff_of_false (Nat.succ_ne_zero _) hcount)⟩

theorem Lists.reuse (h : t.Lists chains free) {dev ino : Nat} (hfirst : t.free.first = some ip)
    (hnew : t.ifind dev ino = none) : (t.reuse ip dev ino).Sound := by
  obtain ⟨rest, rfl⟩ : ∃ rest, free = ip :: rest := by
    rw [h.avail.first_eq] at hfirst
    cases free with
    | nil => cases hfirst
    | cons first rest => exact ⟨rest, by rw [Option.some.inj hfirst]⟩
  have hself : (t.reuse ip dev ino).slot ip =
      { t.slot ip with
        i_dev := dev, i_number := ino, locked := true, mount := false,
        i_count := (t.slot ip).i_count + 1 } :=
    Function.update_self ..
  have hother : ∀ jp, jp ≠ ip → (t.reuse ip dev ino).slot jp = t.slot jp := fun jp hne =>
    Function.update_of_ne hne ..
  have hnone : ∀ jp ∈ chains (INOHASH dev ino), ¬ ((t.slot jp).i_dev = dev ∧
      (t.slot jp).i_number = ino) := by
    intro jp hjp hfor
    rw [← h.onChain_eq] at hjp
    exact h.ifind_eq_none.mp hnew jp ⟨hjp, hfor⟩
  -- a slot other than `ip` is where it was
  have hkept : ∀ ih jp, jp ≠ ip → jp ∈ Function.update (fun ih => (chains ih).erase ip)
      (INOHASH dev ino) (ip :: (chains (INOHASH dev ino)).erase ip) ih → jp ∈ chains ih := by
    intro ih jp hne hmem
    by_cases heq : ih = INOHASH dev ino
    · rw [heq, Function.update_self] at hmem
      rw [heq]
      exact (List.mem_erase_of_ne hne).mp ((List.mem_cons.mp hmem).resolve_left hne)
    · rw [Function.update_of_ne heq] at hmem
      exact (List.mem_erase_of_ne hne).mp hmem
  have hat : ∀ ih, ip ∈ Function.update (fun ih => (chains ih).erase ip)
      (INOHASH dev ino) (ip :: (chains (INOHASH dev ino)).erase ip) ih → ih = INOHASH dev ino := by
    intro ih hmem
    by_contra hne
    rw [Function.update_of_ne hne] at hmem
    exact (h.chain.rings.nodup ih).not_mem_erase hmem
  refine ⟨_, rest, h.chain.move ip (INOHASH dev ino), fun ih jp hjp => ?_,
    fun ih jp hjp jp' hjp' hdev hnumber => ?_, h.avail.removeFirst, fun jp => ?_⟩
  · by_cases heq : jp = ip
    · rw [heq] at hjp
      rw [heq, hself, hat ih hjp]
    · rw [hother jp heq]
      exact h.home ih jp (hkept ih jp heq hjp)
  · by_cases heq : jp = ip <;> by_cases heq' : jp' = ip
    · rw [heq, heq']
    · rw [heq] at hjp
      rw [heq, hself, hother jp' heq'] at hdev hnumber
      have hmem := hkept ih jp' heq' hjp'
      rw [hat ih hjp] at hmem
      exact absurd ⟨hdev.symm, hnumber.symm⟩ (hnone jp' hmem)
    · rw [heq'] at hjp'
      rw [heq', hself, hother jp heq] at hdev hnumber
      have hmem := hkept ih jp heq hjp
      rw [hat ih hjp'] at hmem
      exact absurd ⟨hdev, hnumber⟩ (hnone jp hmem)
    · rw [hother jp heq, hother jp' heq'] at hdev hnumber
      exact h.unique ih jp (hkept ih jp heq hjp) jp' (hkept ih jp' heq' hjp') hdev hnumber
  · by_cases heq : jp = ip
    · rw [heq, hself]
      exact iff_of_false (List.nodup_cons.mp h.avail.nodup).1 (Nat.succ_ne_zero _)
    · rw [hother jp heq, ← h.count jp, List.mem_cons]
      exact (or_iff_right heq).symm

theorem Lists.detach (h : t.Lists chains free) (ip : Fin n) :
    ({ t with chain := (t.chain.remove ip).isolate ip } : Table n).Lists
      (fun ih => (chains ih).erase ip) free :=
  ⟨h.chain.detach ip, fun ih jp hjp => h.home ih jp (List.mem_of_mem_erase hjp),
    fun ih jp hjp jp' hjp' =>
      h.unique ih jp (List.mem_of_mem_erase hjp) jp' (List.mem_of_mem_erase hjp'),
    h.avail, h.count⟩

theorem Lists.discarded (h : t.Lists chains free) (ip : Fin n) :
    (t.discard ip).Lists (fun ih => (chains ih).erase ip) free := by
  have hdetached := h.detach ip
  have hself : (t.discard ip).slot ip = { t.slot ip with i_number := 0 } := Function.update_self ..
  have hother : ∀ jp, jp ≠ ip → (t.discard ip).slot jp = t.slot jp := fun jp hne =>
    Function.update_of_ne hne ..
  have hne : ∀ ih, ∀ jp ∈ (chains ih).erase ip, jp ≠ ip := by
    rintro ih jp hjp rfl
    exact (h.chain.rings.nodup ih).not_mem_erase hjp
  refine ⟨hdetached.chain, fun ih jp hjp => ?_, fun ih jp hjp jp' hjp' => ?_, h.avail,
    fun jp => ?_⟩
  · rw [hother jp (hne ih jp hjp)]
    exact hdetached.home ih jp hjp
  · rw [hother jp (hne ih jp hjp), hother jp' (hne ih jp' hjp')]
    exact hdetached.unique ih jp hjp jp' hjp'
  · by_cases heq : jp = ip
    · rw [heq, hself]
      exact h.count ip
    · rw [hother jp heq]
      exact h.count jp

theorem Lists.discard (h : t.Lists chains free) (ip : Fin n) : (t.discard ip).Sound :=
  ⟨_, _, h.discarded ip⟩

theorem slot_putBack (fs_ronly : Nat → Bool)
    (hcount : (t.slot ip).i_count = 1) :
    ((t.putBack fs_ronly ip).slot ip).i_count = 0 ∧
      ((t.putBack fs_ronly ip).slot ip).i_dev = (t.slot ip).i_dev ∧
      ((t.putBack fs_ronly ip).slot ip).i_number = (t.slot ip).i_number := by
  have hlast : (t.slot ip).i_count - 1 = 0 := by omega
  rw [Table.putBack, modify_self]
  split
  · exact ⟨hlast, rfl, rfl⟩
  · exact ⟨hlast, rfl, rfl⟩

theorem Lists.returned (fs_ronly : Nat → Bool) (h : t.Lists chains free)
    (hcount : (t.slot ip).i_count = 1) :
    (t.putBack fs_ronly ip).Lists chains (free ++ [ip]) := by
  have hself := slot_putBack fs_ronly hcount
  have hother : ∀ jp, jp ≠ ip → (t.putBack fs_ronly ip).slot jp = t.slot jp := fun jp hne =>
    Function.update_of_ne hne ..
  have hnew : ip ∉ free := by
    rw [h.count ip, hcount]
    exact Nat.one_ne_zero
  refine h.edit rfl (fun jp => ?_) (h.avail.insertTail hnew) fun jp => ?_
  · by_cases heq : jp = ip
    · rw [heq]
      exact hself.2
    · rw [hother jp heq]
      exact ⟨rfl, rfl⟩
  · by_cases heq : jp = ip
    · rw [heq, hself.1]
      exact iff_of_true (by simp) rfl
    · rw [hother jp heq, ← h.count jp, List.mem_append, List.mem_singleton, or_iff_left heq]

theorem Lists.putBack (fs_ronly : Nat → Bool) (h : t.Lists chains free)
    (hcount : (t.slot ip).i_count = 1) : (t.putBack fs_ronly ip).Sound :=
  ⟨_, _, h.returned fs_ronly hcount⟩

theorem iflushLoop_sound (isBlk : Nat → Bool) (dev : Nat) (ips : List (Fin n)) (count : Int)
    (h : t.Sound) : (iflushLoop isBlk dev ips count t).2.Sound ∧
      (iflushLoop isBlk dev ips count t).2.slot = t.slot := by
  induction ips generalizing t count with
  | nil => exact ⟨h, rfl⟩
  | cons ip ips ih =>
      rw [iflushLoop]
      split
      · split
        · exact ⟨h, rfl⟩
        · obtain ⟨chains, free, hlists⟩ := h
          exact ih count ⟨_, free, hlists.detach ip⟩
      · split
        · exact ih (count + 1) h
        · exact ih count h

theorem Sound.iflush (isBlk : Nat → Bool) (h : t.Sound) (dev : Nat) :
    (t.iflush isBlk dev).2.Sound ∧ (t.iflush isBlk dev).2.slot = t.slot :=
  iflushLoop_sound isBlk dev (List.finRange n) 0 h

/-- While the free list is built, appending is what `irele` does. -/
theorem append_eq {q : TailQueue (Fin n)} (hlast : q.first = none → q.last = none)
    (hnext : q.next ip = none) (hne : q.last ≠ some ip) : append q ip = q.insertTail ip := by
  rw [append, TailQueue.insertTail]
  cases hfirst : q.first with
  | none =>
      have hupdate : Function.update q.next ip none = q.next :=
        Function.update_eq_self_iff.mpr hnext.symm
      rw [hlast hfirst]
      simp only [TailQueue.setTarget, hupdate]
  | some first =>
      have hkept : (q.setTarget q.last (some ip)).next ip = none := by
        cases hq : q.last with
        | none => exact hnext
        | some last =>
            refine (Function.update_of_ne ?_ ..).trans hnext
            rintro rfl
            exact hne hq
      have hupdate : Function.update (q.setTarget q.last (some ip)).next ip none =
          (q.setTarget q.last (some ip)).next :=
        Function.update_eq_self_iff.mpr hkept.symm
      simp only [hupdate]

theorem lists_append (ips : List (Fin n)) {q : TailQueue (Fin n)} {free : List (Fin n)}
    (h : q.Lists free) (hlast : q.first = none → q.last = none) (hnext : ∀ ip ∈ ips, q.next ip = none)
    (hnodup : (free ++ ips).Nodup) : (ips.foldl append q).Lists (free ++ ips) := by
  induction ips generalizing q free with
  | nil =>
      rw [List.append_nil]
      exact h
  | cons ip ips ih =>
      obtain ⟨hfree, hips, hapart⟩ := List.nodup_append.mp hnodup
      have hnew : ip ∉ free := fun hmem => hapart ip hmem ip List.mem_cons_self rfl
      have hmem : ∀ jp, q.last = some jp → jp ∈ free := by
        intro jp heq
        cases free with
        | nil =>
            rw [hlast h.first_eq] at heq
            cases heq
        | cons first rest =>
            rw [h.last (List.cons_ne_nil first rest)] at heq
            exact List.mem_of_getLast? heq
      have hne : q.last ≠ some ip := fun heq => hnew (hmem ip heq)
      have happend := append_eq hlast (hnext ip List.mem_cons_self) hne
      have hstep := h.insertTail hnew
      rw [← happend] at hstep
      rw [List.foldl_cons, List.append_cons]
      refine ih hstep (fun hfirst => ?_) (fun jp hjp => ?_) (by rw [← List.append_cons]; exact hnodup)
      · rw [hstep.first_eq] at hfirst
        exact absurd (List.head?_eq_none_iff.mp hfirst) (by simp)
      · have hnone := hnext jp (List.mem_cons_of_mem ip hjp)
        show (q.setTarget q.last (some ip)).next jp = none
        cases hq : q.last with
        | none => exact hnone
        | some last =>
            refine (Function.update_of_ne ?_ ..).trans hnone
            rintro rfl
            exact hapart jp (hmem jp hq) jp (List.mem_cons_of_mem ip hjp) rfl

theorem sound_ihinit : (ihinit : Table n).Sound := by
  have hrings : Rings (⟨id, id⟩ : Links (Fin INOHSZ) (Fin n)) fun _ => [] :=
    ⟨fun ih => ⟨rfl, rfl⟩, fun _ => List.nodup_nil, fun _ _ _ hmem => absurd hmem List.not_mem_nil⟩
  have hempty : (⟨none, none, fun _ => none, fun _ => none⟩ : TailQueue (Fin n)).Lists [] :=
    ⟨rfl, List.nodup_nil, fun hne => absurd rfl hne⟩
  refine ⟨fun _ => [], List.finRange n, ⟨hrings, fun _ _ => ⟨rfl, rfl⟩⟩,
    fun _ _ hmem => absurd hmem List.not_mem_nil, fun _ _ hmem => absurd hmem List.not_mem_nil, ?_,
    fun ip => iff_of_true (List.mem_finRange ip) rfl⟩
  exact lists_append (List.finRange n) hempty (fun _ => rfl) (fun _ _ => rfl) (List.nodup_finRange n)

end Table

end DiscoBsd.Inode
