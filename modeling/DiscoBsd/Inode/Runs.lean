import DiscoBsd.Inode.Sound

/-!
# The inode table under any interleaving

A process that reads a new inode or writes out one that it releases has the only reference to the slot
and holds its lock; any other slot has as many references as are in use. With the lists of the table
this is kept by every step, so it holds in every state that a run reaches.
-/

namespace DiscoBsd.Inode

open DiscoBsd.Lib

variable {n : Nat} {P : Type}

/-- The slot that a process reads or releases. -/
def Control.busy : Control n → Option (Fin n)
  | .reading ip => some ip
  | .releasing ip _ => some ip
  | _ => none

namespace Kernel

/-- A slot and its users: the only reference is that of a process asleep, or all are in use. -/
def Counted (k : Kernel n P) (ip : Fin n) : Prop :=
  ((∀ q, (k.proc q).busy ≠ some ip) ∧ (k.table.slot ip).i_count = k.held ip) ∨
    ∃ p, (∀ q, (k.proc q).busy = some ip ↔ q = p) ∧ k.held ip = 0 ∧
      (k.table.slot ip).i_count = 1 ∧ (k.table.slot ip).locked = true

structure Good (k : Kernel n P) : Prop where
  table : k.table.Sound
  counted : ∀ ip, k.Counted ip

theorem Good.count_eq {k : Kernel n P} (h : k.Good) {ip : Fin n} (hheld : k.held ip ≠ 0) :
    (∀ q, (k.proc q).busy ≠ some ip) ∧ (k.table.slot ip).i_count = k.held ip := by
  rcases h.counted ip with hfree | ⟨p, -, hzero, -⟩
  · exact hfree
  · exact absurd hzero hheld

theorem Good.count_of_unlocked {k : Kernel n P} (h : k.Good) {ip : Fin n}
    (hlocked : (k.table.slot ip).locked = false) :
    (∀ q, (k.proc q).busy ≠ some ip) ∧ (k.table.slot ip).i_count = k.held ip := by
  rcases h.counted ip with hfree | ⟨p, -, -, -, hlock⟩
  · exact hfree
  · rw [hlocked] at hlock
    cases hlock

theorem Good.busy {k : Kernel n P} (h : k.Good) {p : P} {ip : Fin n}
    (hbusy : (k.proc p).busy = some ip) :
    (∀ q, (k.proc q).busy = some ip ↔ q = p) ∧ k.held ip = 0 ∧
      (k.table.slot ip).i_count = 1 ∧ (k.table.slot ip).locked = true := by
  rcases h.counted ip with ⟨hfree, -⟩ | ⟨p', honly, hrest⟩
  · exact absurd hbusy (hfree p)
  · obtain rfl := (honly p).mp hbusy
    exact ⟨honly, hrest⟩

/-- A step that concerns one slot. -/
theorem Good.step {k k' : Kernel n P} (h : k.Good) (ip : Fin n) (htable : k'.table.Sound)
    (hrest : ∀ jp, jp ≠ ip → k'.table.slot jp = k.table.slot jp ∧ k'.held jp = k.held jp)
    (hproc : ∀ q jp, jp ≠ ip → ((k'.proc q).busy = some jp ↔ (k.proc q).busy = some jp))
    (hip : k'.Counted ip) : k'.Good := by
  refine ⟨htable, fun jp => ?_⟩
  by_cases heq : jp = ip
  · exact heq ▸ hip
  · obtain ⟨hslot, hheld⟩ := hrest jp heq
    rcases h.counted jp with ⟨hfree, hcount⟩ | ⟨p, honly, hzero, hcount, hlock⟩
    · refine .inl ⟨fun q hbusy => hfree q ((hproc q jp heq).mp hbusy), ?_⟩
      rw [hslot, hheld]
      exact hcount
    · refine .inr ⟨p, fun q => (hproc q jp heq).trans (honly q), ?_⟩
      rw [hslot, hheld]
      exact ⟨hzero, hcount, hlock⟩

/-- Somebody with a reference changes the slot, but not its inode or its references. -/
theorem Good.change {k k' : Kernel n P} (h : k.Good) {ip : Fin n} {f : Slot → Slot}
    (hheld : k.held ip ≠ 0) (hk' : k' = { k with table := k.table.modify ip f })
    (hdev : (f (k.table.slot ip)).i_dev = (k.table.slot ip).i_dev)
    (hnumber : (f (k.table.slot ip)).i_number = (k.table.slot ip).i_number)
    (hcount : (f (k.table.slot ip)).i_count = (k.table.slot ip).i_count) : k'.Good := by
  obtain ⟨chains, free, hlists⟩ := h.table
  obtain ⟨hfree, heq⟩ := h.count_eq hheld
  rw [hk']
  refine h.step ip ⟨chains, free, hlists.modify hdev hnumber (by rw [hcount])⟩
    (fun jp hjp => ⟨Function.update_of_ne hjp .., rfl⟩) (fun _ _ _ => Iff.rfl) (.inl ⟨hfree, ?_⟩)
  show ((k.table.modify ip f).slot ip).i_count = k.held ip
  rw [Table.modify_self, hcount]
  exact heq

theorem Good.mounts {k : Kernel n P} (h : k.Good) (m_dev : Fin n → Option Nat) :
    ({ k with m_dev := m_dev } : Kernel n P).Good :=
  ⟨h.table, h.counted⟩

variable [DecidableEq P]

/-- A process goes on, and was or is busy with no slot but this one. -/
theorem Good.proceed {k k' : Kernel n P} (h : k.Good) (ip : Fin n) {p : P} {c : Control n}
    (htable : k'.table.Sound)
    (hrest : ∀ jp, jp ≠ ip → k'.table.slot jp = k.table.slot jp ∧ k'.held jp = k.held jp)
    (hproc : k'.proc = Function.update k.proc p c)
    (hbefore : ∀ jp, jp ≠ ip → (k.proc p).busy ≠ some jp)
    (hothers : ∀ q, q ≠ p → (k.proc q).busy ≠ some ip)
    (hafter : c.busy = none ∧ (k'.table.slot ip).i_count = k'.held ip ∨
      c.busy = some ip ∧ k'.held ip = 0 ∧ (k'.table.slot ip).i_count = 1 ∧
        (k'.table.slot ip).locked = true) : k'.Good := by
  have hself : k'.proc p = c := by
    rw [hproc]
    exact Function.update_self ..
  have hother : ∀ q, q ≠ p → k'.proc q = k.proc q := by
    intro q hq
    rw [hproc]
    exact Function.update_of_ne hq ..
  refine h.step ip htable hrest (fun q jp hjp => ?_) ?_
  · by_cases hq : q = p
    · rw [hq, hself]
      refine iff_of_false (fun hbusy => ?_) (hbefore jp hjp)
      rcases hafter with ⟨hnone, -⟩ | ⟨hsome, -⟩
      · rw [hnone] at hbusy
        cases hbusy
      · rw [hsome] at hbusy
        exact hjp (Option.some.inj hbusy).symm
    · rw [hother q hq]
  · rcases hafter with ⟨hnone, hcount⟩ | ⟨hsome, hrest⟩
    · refine .inl ⟨fun q => ?_, hcount⟩
      by_cases hq : q = p
      · rw [hq, hself, hnone]
        exact nofun
      · rw [hother q hq]
        exact hothers q hq
    · refine .inr ⟨p, fun q => ?_, hrest⟩
      by_cases hq : q = p
      · rw [hq, hself]
        exact iff_of_true hsome rfl
      · rw [hother q hq]
        exact iff_of_false (hothers q hq) hq

/-- A process that is busy with no slot comes to another such point. -/
theorem Good.goTo {k : Kernel n P} (h : k.Good) {p : P} {c : Control n}
    (hold : (k.proc p).busy = none) (hnew : c.busy = none) : (k.goTo p c).Good := by
  have hproc : ∀ q, ((k.goTo p c).proc q).busy = (k.proc q).busy := by
    intro q
    by_cases heq : q = p
    · have hself : (k.goTo p c).proc p = c := Function.update_self ..
      rw [heq, hself, hold, hnew]
    · have hother : (k.goTo p c).proc q = k.proc q := Function.update_of_ne heq ..
      rw [hother]
  refine ⟨h.table, fun ip => ?_⟩
  rcases h.counted ip with ⟨hfree, hcount⟩ | ⟨q, honly, hrest⟩
  · exact .inl ⟨fun q => hproc q ▸ hfree q, hcount⟩
  · exact .inr ⟨q, fun q' => hproc q' ▸ honly q', hrest⟩

/-! ## Pieces of the calls -/

theorem slot_grab_self (t : Table n) (ip : Fin n) :
    (t.grab ip).slot ip =
      { t.slot ip with i_count := (t.slot ip).i_count + 1, locked := true } := by
  rw [Table.grab]
  split <;> exact Function.update_self ..

theorem slot_grab_of_ne (t : Table n) {ip jp : Fin n} (h : jp ≠ ip) :
    (t.grab ip).slot jp = t.slot jp := by
  rw [Table.grab]
  split <;> exact Function.update_of_ne h ..

/-- A reference to a slot that is not locked is given to a process. -/
theorem Good.grab {k : Kernel n P} (h : k.Good) {p : P} {ip : Fin n}
    (hold : (k.proc p).busy = none) (hlocked : (k.table.slot ip).locked = false) :
    ({ k with table := k.table.grab ip }.give p ip : Kernel n P).Good := by
  obtain ⟨hfree, hcount⟩ := h.count_of_unlocked hlocked
  obtain ⟨chains, free, hlists⟩ := h.table
  refine h.proceed ip (hlists.grab ip) (fun jp hjp => ⟨slot_grab_of_ne k.table hjp, ?_⟩) rfl
    (fun jp _ => ?_) (fun q _ => hfree q) (.inl ⟨rfl, ?_⟩)
  · exact Function.update_of_ne hjp ..
  · rw [hold]
    exact nofun
  · show ((k.table.grab ip).slot ip).i_count = Function.update k.held ip (k.held ip + 1) ip
    rw [slot_grab_self, Function.update_self]
    exact congrArg (· + 1) hcount

theorem Good.iget {k k' : Kernel n P} (h : k.Good) {p : P} {dev ino : Nat}
    (hold : (k.proc p).busy = none) (hstep : k.iget p dev ino = some k') : k'.Good := by
  obtain ⟨chains, free, hlists⟩ := h.table
  rw [Kernel.iget] at hstep
  split at hstep
  · rename_i ip hfind
    split at hstep
    · cases hstep
      exact h
    · rename_i hlocked
      split at hstep
      · obtain ⟨dev', -, hk'⟩ := Option.map_eq_some_iff.mp hstep
        cases hk'
        exact h.goTo hold rfl
      · cases hstep
        exact h.grab hold (Bool.eq_false_iff.mpr hlocked)
  · rename_i hfind
    split at hstep
    · cases hstep
      exact h.goTo hold rfl
    · rename_i ip hfirst
      split at hstep
      · cases hstep
      · rename_i hcount
        cases hstep
        have hzero := not_not.mp hcount
        have hunused : (∀ q, (k.proc q).busy ≠ some ip) ∧ k.held ip = 0 := by
          rcases h.counted ip with ⟨hfree, heq⟩ | ⟨q, -, -, hone, -⟩
          · exact ⟨hfree, heq ▸ hzero⟩
          · rw [hzero] at hone
            cases hone
        refine h.proceed ip (hlists.reuse hfirst hfind)
          (fun jp hjp => ⟨Function.update_of_ne hjp .., rfl⟩) rfl (fun jp _ => ?_)
          (fun q _ => hunused.1 q) (.inr ⟨rfl, hunused.2, ?_⟩)
        · rw [hold]
          exact nofun
        · have hself : (k.table.reuse ip dev ino).slot ip =
              { k.table.slot ip with
                i_dev := dev, i_number := ino, locked := true, mount := false,
                i_count := (k.table.slot ip).i_count + 1 } :=
            Function.update_self ..
          show ((k.table.reuse ip dev ino).slot ip).i_count = 1 ∧
            ((k.table.reuse ip dev ino).slot ip).locked = true
          rw [hself]
          exact ⟨congrArg (· + 1) hzero, rfl⟩

/-- `irele` with one reference more than are held. -/
theorem Good.irele {k k' : Kernel n P} (h : k.Good) {p : P} {ip : Fin n} (result : Option (Fin n))
    (htable : k'.table.Sound) (hproc : k'.proc = k.proc)
    (hrest : ∀ jp, jp ≠ ip → k'.table.slot jp = k.table.slot jp ∧ k'.held jp = k.held jp)
    (hbefore : ∀ jp, jp ≠ ip → (k.proc p).busy ≠ some jp)
    (hothers : ∀ q, q ≠ p → (k.proc q).busy ≠ some ip)
    (hcount : (k'.table.slot ip).i_count = k'.held ip + 1) : (k'.irele p ip result).Good := by
  obtain ⟨chains, free, hlists⟩ := htable
  have hkept : ∀ f : Slot → Slot, ∀ jp, jp ≠ ip →
      (k'.table.modify ip f).slot jp = k.table.slot jp ∧ k'.held jp = k.held jp := fun f jp hjp =>
    ⟨(k'.table.modify_of_ne hjp f).trans (hrest jp hjp).1, (hrest jp hjp).2⟩
  have hgoes : ∀ c : Control n,
      Function.update k'.proc p c = Function.update k.proc p c := fun c => by rw [hproc]
  rw [Kernel.irele]
  split
  · rename_i hlast
    have hself := k'.table.modify_self ip fun s => { s with locked := true }
    have hlists' : (k'.table.modify ip fun s => { s with locked := true }).Lists chains free :=
      hlists.modify rfl rfl Iff.rfl
    have hzero : k'.held ip = 0 := by omega
    refine h.proceed ip ⟨chains, free, hlists'⟩ (hkept fun s => { s with locked := true }) (hgoes _)
      hbefore hothers (.inr ⟨rfl, hzero, ?_, ?_⟩)
    · exact (congrArg Slot.i_count hself).trans hlast
    · exact congrArg Slot.locked hself
  · rename_i hmore
    have hself := k'.table.modify_self ip fun s => { s with i_count := s.i_count - 1 }
    have hless : (k'.table.slot ip).i_count - 1 = 0 ↔ (k'.table.slot ip).i_count = 0 := by omega
    have hlists' : (k'.table.modify ip fun s => { s with i_count := s.i_count - 1 }).Lists
        chains free :=
      hlists.modify rfl rfl hless
    have hheld : (k'.table.slot ip).i_count - 1 = k'.held ip := by omega
    refine h.proceed ip ⟨chains, free, hlists'⟩
      (hkept fun s => { s with i_count := s.i_count - 1 }) (hgoes _) hbefore hothers (.inl ⟨rfl, ?_⟩)
    exact (congrArg Slot.i_count hself).trans hheld

omit [DecidableEq P] in
theorem Good.alone {k : Kernel n P} (h : k.Good) {p : P} {ip : Fin n}
    (hbusy : (k.proc p).busy = some ip) :
    (∀ jp, jp ≠ ip → (k.proc p).busy ≠ some jp) ∧ ∀ q, q ≠ p → (k.proc q).busy ≠ some ip := by
  refine ⟨fun jp hjp heq => ?_, fun q hq heq => hq (((h.busy hbusy).1 q).mp heq)⟩
  rw [hbusy] at heq
  exact hjp (Option.some.inj heq).symm

theorem Good.read {k : Kernel n P} (h : k.Good) {p : P} {ip : Fin n}
    (hbusy : (k.proc p).busy = some ip) (dp : Option Dinode) : (k.read p ip dp).Good := by
  obtain ⟨-, hheld, hcount, -⟩ := h.busy hbusy
  obtain ⟨hbefore, hothers⟩ := h.alone hbusy
  obtain ⟨chains, free, hlists⟩ := h.table
  cases dp with
  | some dp =>
      have hself : (k.table.fill ip dp).slot ip =
          { k.table.slot ip with
            i_mode := dp.di_mode, i_nlink := dp.di_nlink, i_rdev := dp.di_rdev } :=
        Function.update_self ..
      have hlists' : (k.table.fill ip dp).Lists chains free := hlists.modify rfl rfl Iff.rfl
      refine h.proceed ip ⟨chains, free, hlists'⟩
        (fun jp hjp => ⟨Function.update_of_ne hjp .., Function.update_of_ne hjp ..⟩) rfl hbefore
        hothers (.inl ⟨rfl, ?_⟩)
      show ((k.table.fill ip dp).slot ip).i_count = Function.update k.held ip (k.held ip + 1) ip
      rw [Function.update_self, hheld]
      exact (congrArg Slot.i_count hself).trans hcount
  | none =>
      obtain ⟨chains', free', hlists'⟩ := hlists.discard ip
      have hself : (k.table.discard ip).slot ip = { k.table.slot ip with i_number := 0 } :=
        Function.update_self ..
      have hlists'' : ((k.table.discard ip).modify ip fun s => { s with locked := false }).Lists
          chains' free' :=
        hlists'.modify rfl rfl Iff.rfl
      refine h.irele none ⟨chains', free', hlists''⟩ rfl (fun jp hjp => ⟨?_, rfl⟩) hbefore hothers ?_
      · have hslot : (k.table.discard ip).slot jp = k.table.slot jp := Function.update_of_ne hjp ..
        exact (Function.update_of_ne hjp ..).trans hslot
      · show (((k.table.discard ip).modify ip fun s => { s with locked := false }).slot ip).i_count =
          k.held ip + 1
        rw [Table.modify_self, hself, hheld]
        exact hcount

/-- The end of `irele`. -/
theorem Good.putBack {k : Kernel n P} (h : k.Good) {p : P} {ip : Fin n}
    (hbusy : (k.proc p).busy = some ip) (fs_ronly : Nat → Bool) (result : Option (Fin n)) :
    ({ k with table := k.table.putBack fs_ronly ip }.goTo p (.returned result)).Good := by
  obtain ⟨-, hheld, hcount, -⟩ := h.busy hbusy
  obtain ⟨hbefore, hothers⟩ := h.alone hbusy
  obtain ⟨chains, free, hlists⟩ := h.table
  refine h.proceed ip (hlists.putBack fs_ronly hcount)
    (fun jp hjp => ⟨Function.update_of_ne hjp .., rfl⟩) rfl hbefore hothers (.inl ⟨rfl, ?_⟩)
  exact (Table.slot_putBack fs_ronly hcount).1.trans hheld.symm

theorem Good.run {fs_ronly : Nat → Bool} {k k' : Kernel n P} (h : k.Good) {p : P}
    {dp : Option Dinode} (hstep : k.run fs_ronly p dp = some k') : k'.Good := by
  rw [Kernel.run] at hstep
  cases hp : k.proc p with
  | returned result =>
      rw [hp] at hstep
      cases hstep
  | iget dev ino =>
      rw [hp] at hstep
      exact h.iget (congrArg Control.busy hp) hstep
  | reading ip =>
      rw [hp] at hstep
      cases hstep
      exact h.read (congrArg Control.busy hp) dp
  | igrab ip =>
      rw [hp] at hstep
      cases hstep
      rw [Kernel.igrab]
      split
      · exact h
      · rename_i hlocked
        exact h.grab (congrArg Control.busy hp) (Bool.eq_false_iff.mpr hlocked)
  | releasing ip result =>
      rw [hp] at hstep
      cases hstep
      exact h.putBack (congrArg Control.busy hp) fs_ronly result

/-! ## Events -/

omit [DecidableEq P] in
theorem busy_of_calling {k k' : Kernel n P} {p : P} {next : Option (Kernel n P)}
    (hstep : k.calling p next = some k') : (k.proc p).busy = none ∧ next = some k' := by
  rw [calling] at hstep
  split at hstep
  · rename_i result hp
    exact ⟨congrArg Control.busy hp, hstep⟩
  · cases hstep

omit [DecidableEq P] in
theorem held_of_withHeld {k k' next : Kernel n P} {ip : Fin n}
    (hstep : k.withHeld ip next = some k') : k.held ip ≠ 0 ∧ next = k' := by
  rw [withHeld] at hstep
  split at hstep
  · cases hstep
  · rename_i hheld
    exact ⟨hheld, Option.some.inj hstep⟩

theorem Good.release {k : Kernel n P} (h : k.Good) {p : P} {ip : Fin n}
    (hold : (k.proc p).busy = none) (hheld : k.held ip ≠ 0) :
    ((k.drop ip).irele p ip none).Good ∧ (((k.drop ip).unlock ip).irele p ip none).Good := by
  obtain ⟨hfree, hcount⟩ := h.count_eq hheld
  have hbefore : ∀ jp, jp ≠ ip → (k.proc p).busy ≠ some jp := fun jp _ => by
    rw [hold]
    exact nofun
  have hdropped : (k.drop ip).held ip = k.held ip - 1 := Function.update_self ..
  have hkept : ∀ jp, jp ≠ ip → (k.drop ip).held jp = k.held jp := fun jp hjp =>
    Function.update_of_ne hjp ..
  obtain ⟨chains, free, hlists⟩ := h.table
  constructor
  · refine h.irele none ⟨chains, free, hlists⟩ rfl (fun jp hjp => ⟨rfl, hkept jp hjp⟩) hbefore
      (fun q _ => hfree q) ?_
    rw [hdropped]
    show (k.table.slot ip).i_count = k.held ip - 1 + 1
    omega
  · have hlists' : (k.table.modify ip fun s => { s with locked := false }).Lists chains free :=
      hlists.modify rfl rfl Iff.rfl
    have hslot := k.table.modify_self ip fun s => { s with locked := false }
    have hself : (((k.drop ip).unlock ip).table.slot ip).i_count = (k.table.slot ip).i_count :=
      (congrArg Slot.i_count hslot).trans rfl
    refine h.irele none ⟨chains, free, hlists'⟩ rfl
      (fun jp hjp => ⟨Function.update_of_ne hjp .., hkept jp hjp⟩) hbefore (fun q _ => hfree q) ?_
    rw [hself]
    show (k.table.slot ip).i_count = (k.drop ip).held ip + 1
    omega

omit [DecidableEq P] in
theorem Good.reference {k : Kernel n P} (h : k.Good) {ip : Fin n} (hheld : k.held ip ≠ 0) :
    ({ k with
        table := k.table.modify ip fun s => { s with i_count := s.i_count + 1 }
        held := Function.update k.held ip (k.held ip + 1) } : Kernel n P).Good := by
  obtain ⟨chains, free, hlists⟩ := h.table
  obtain ⟨hfree, heq⟩ := h.count_eq hheld
  have hused : (k.table.slot ip).i_count + 1 = 0 ↔ (k.table.slot ip).i_count = 0 := by omega
  have hlists' : (k.table.modify ip fun s => { s with i_count := s.i_count + 1 }).Lists chains free :=
    hlists.modify rfl rfl hused
  refine h.step ip ⟨chains, free, hlists'⟩
    (fun jp hjp => ⟨Function.update_of_ne hjp .., Function.update_of_ne hjp ..⟩)
    (fun _ _ _ => Iff.rfl) (.inl ⟨hfree, ?_⟩)
  show ((k.table.modify ip fun s => { s with i_count := s.i_count + 1 }).slot ip).i_count =
    Function.update k.held ip (k.held ip + 1) ip
  rw [Table.modify_self, Function.update_self]
  exact congrArg (· + 1) heq

omit [DecidableEq P] in
theorem Good.lastr {k : Kernel n P} (h : k.Good) {ip : Fin n} (hheld : k.held ip ≠ 0)
    (value : Option (Fin n)) :
    ({ k with table := { k.table with free :=
        { k.table.free with next := Function.update k.table.free.next ip value } } } :
      Kernel n P).Good := by
  obtain ⟨chains, free, hlists⟩ := h.table
  have hmem : ip ∉ free := by
    rw [hlists.count ip, (h.count_eq hheld).2]
    exact hheld
  exact ⟨⟨chains, free, hlists.edit rfl (fun _ => ⟨rfl, rfl⟩) (hlists.avail.scribble hmem value)
    hlists.count⟩, h.counted⟩

omit [DecidableEq P] in
theorem Good.umount {k : Kernel n P} (h : k.Good) (ip : Fin n) :
    ({ k with table := k.table.modify ip fun s => { s with mount := false } } : Kernel n P).Good := by
  obtain ⟨chains, free, hlists⟩ := h.table
  have hlists' : (k.table.modify ip fun s => { s with mount := false }).Lists chains free :=
    hlists.modify rfl rfl Iff.rfl
  have hself := k.table.modify_self ip fun s => { s with mount := false }
  refine h.step ip ⟨chains, free, hlists'⟩ (fun jp hjp => ⟨Function.update_of_ne hjp .., rfl⟩)
    (fun _ _ _ => Iff.rfl) ?_
  rcases h.counted ip with ⟨hfree, hcount⟩ | ⟨p, honly, hzero, hcount, hlock⟩
  · exact .inl ⟨hfree, (congrArg Slot.i_count hself).trans hcount⟩
  · exact .inr ⟨p, honly, hzero, (congrArg Slot.i_count hself).trans hcount,
      (congrArg Slot.locked hself).trans hlock⟩

omit [DecidableEq P] in
theorem Good.iflush {k : Kernel n P} (h : k.Good) (isBlk : Nat → Bool) (dev : Nat) :
    ({ k with table := (k.table.iflush isBlk dev).2 } : Kernel n P).Good := by
  obtain ⟨hsound, hslot⟩ := h.table.iflush isBlk dev
  refine ⟨hsound, fun ip => ?_⟩
  have hcounted := h.counted ip
  rw [Counted, ← hslot] at hcounted
  exact hcounted

theorem Good.event {fs_ronly isBlk : Nat → Bool} {k k' : Kernel n P} (h : k.Good) {e : Event n P}
    (hstep : k.event fs_ronly isBlk e = some k') : k'.Good := by
  cases e with
  | iget p dev ino =>
      obtain ⟨hold, hk'⟩ := busy_of_calling hstep
      cases hk'
      exact h.goTo hold rfl
  | igrab p ip =>
      obtain ⟨hold, hk'⟩ := busy_of_calling hstep
      cases hk'
      exact h.goTo hold rfl
  | iput p ip =>
      obtain ⟨hold, hnext⟩ := busy_of_calling hstep
      obtain ⟨hheld, rfl⟩ := held_of_withHeld hnext
      exact (h.release hold hheld).2
  | irele p ip =>
      obtain ⟨hold, hnext⟩ := busy_of_calling hstep
      obtain ⟨hheld, rfl⟩ := held_of_withHeld hnext
      exact (h.release hold hheld).1
  | run p dp => exact h.run hstep
  | iflush dev =>
      cases hstep
      exact h.iflush isBlk dev
  | reference ip =>
      obtain ⟨hheld, rfl⟩ := held_of_withHeld hstep
      exact h.reference hheld
  | ilock ip =>
      rw [Kernel.event] at hstep
      split at hstep
      · cases hstep
      · obtain ⟨hheld, hk'⟩ := held_of_withHeld hstep
        exact h.change hheld hk'.symm rfl rfl rfl
  | iunlock ip =>
      obtain ⟨hheld, hk'⟩ := held_of_withHeld hstep
      exact h.change hheld hk'.symm rfl rfl rfl
  | link ip nlink =>
      obtain ⟨hheld, hk'⟩ := held_of_withHeld hstep
      exact h.change hheld hk'.symm rfl rfl rfl
  | lastr ip value =>
      obtain ⟨hheld, rfl⟩ := held_of_withHeld hstep
      exact h.lastr hheld value
  | mount ip dev =>
      obtain ⟨hheld, rfl⟩ := held_of_withHeld hstep
      exact (h.change hheld rfl rfl rfl rfl :
        ({ k with table := k.table.modify ip fun s => { s with mount := true } } :
          Kernel n P).Good).mounts _
  | umount ip =>
      cases hstep
      exact (h.umount ip).mounts _

omit [DecidableEq P] in
theorem good_boot : (boot : Kernel n P).Good :=
  ⟨Table.sound_ihinit, fun _ => .inl ⟨fun _ => nofun, rfl⟩⟩

/-! ## Runs -/

section Calls

variable {fs_ronly isBlk : Nat → Bool} {k : Kernel n P} {p : P} {dev ino : Nat} {ip : Fin n}

/-- With a slot for the inode, `iget` waits for it, goes on to what is mounted there, or returns it. -/
theorem Good.event_iget (h : k.Good) (dp : Option Dinode) (hp : k.proc p = .iget dev ino)
    (hstands : k.table.Stands ip dev ino) :
    k.event fs_ronly isBlk (.run p dp) =
      if (k.table.slot ip).locked then some k
      else if (k.table.slot ip).mount then (k.m_dev ip).map fun dev => k.goTo p (.iget dev ROOTINO)
      else some ({ k with table := k.table.grab ip }.give p ip) := by
  obtain ⟨chains, free, hlists⟩ := h.table
  rw [Kernel.event, Kernel.run, hp]
  dsimp only
  rw [Kernel.iget, hlists.ifind_eq_some.mpr hstands]

/-- Without one it takes the first free slot, which has no references. -/
theorem Good.event_iget_new (h : k.Good) (dp : Option Dinode) (hp : k.proc p = .iget dev ino)
    (hnew : ∀ ip, ¬ k.table.Stands ip dev ino) :
    k.event fs_ronly isBlk (.run p dp) =
      some (match k.table.free.first with
        | none => k.goTo p (.returned none)
        | some ip => { k with table := k.table.reuse ip dev ino }.goTo p (.reading ip)) := by
  obtain ⟨chains, free, hlists⟩ := h.table
  rw [Kernel.event, Kernel.run, hp]
  dsimp only
  rw [Kernel.iget, hlists.ifind_eq_none.mpr hnew]
  cases hfirst : k.table.free.first with
  | none => rfl
  | some ip =>
      have hmem : ip ∈ free := by
        rw [hlists.avail.first_eq] at hfirst
        exact List.mem_of_mem_head? hfirst
      have hunused : ¬ (k.table.slot ip).i_count ≠ 0 := not_not.mpr ((hlists.count ip).mp hmem)
      exact if_neg hunused

end Calls

omit [DecidableEq P] in
/-- Two slots on chains are for two inodes. -/
theorem Good.unique {k : Kernel n P} (h : k.Good) {ih jh : Fin INOHSZ} {ip jp : Fin n}
    (hip : ip ∈ k.table.onChain ih) (hjp : jp ∈ k.table.onChain jh)
    (hdev : (k.table.slot ip).i_dev = (k.table.slot jp).i_dev)
    (hnumber : (k.table.slot ip).i_number = (k.table.slot jp).i_number) : ip = jp := by
  obtain ⟨chains, free, hlists⟩ := h.table
  rw [hlists.onChain_eq] at hip hjp
  have hsame : ih = jh := by
    rw [← hlists.home ih ip hip, ← hlists.home jh jp hjp, hdev, hnumber]
  exact hlists.unique ih ip hip jp (hsame ▸ hjp) hdev hnumber

theorem Good.of_run {fs_ronly isBlk : Nat → Bool} {events : List (Event n P)} {k : Kernel n P}
    (hrun : Steps (Steps.Of (Kernel.event fs_ronly isBlk)) boot events k) : k.Good :=
  Steps.invariant Good (fun _ _ _ h hstep => h.event hstep) hrun good_boot

/-- In every state that a run reaches, no two slots on the hash chains are for one inode, and each is on
the chain of its inode; the free list is one list, of the slots without references. For an inode with a
slot on its chain `iget` waits while the slot is locked, goes on to the root of a file system mounted
there, and otherwise returns that slot with one reference more; for another inode it begins to read a
slot of the free list. -/
theorem inode_table (fs_ronly isBlk : Nat → Bool) {events : List (Event n P)} {k : Kernel n P}
    (hrun : Steps (Steps.Of (Kernel.event fs_ronly isBlk)) boot events k) :
    (∀ ih jh ip jp, ip ∈ k.table.onChain ih → jp ∈ k.table.onChain jh →
      (k.table.slot ip).i_dev = (k.table.slot jp).i_dev →
      (k.table.slot ip).i_number = (k.table.slot jp).i_number → ip = jp) ∧
    (∀ ih ip, ip ∈ k.table.onChain ih →
      INOHASH (k.table.slot ip).i_dev (k.table.slot ip).i_number = ih) ∧
    (∃ free, k.table.free.Lists free ∧ ∀ ip, ip ∈ free ↔ (k.table.slot ip).i_count = 0) ∧
    (∀ p dev ino ip dp, k.proc p = .iget dev ino → k.table.Stands ip dev ino →
      k.event fs_ronly isBlk (.run p dp) =
        if (k.table.slot ip).locked then some k
        else if (k.table.slot ip).mount then (k.m_dev ip).map fun dev => k.goTo p (.iget dev ROOTINO)
        else some ({ k with table := k.table.grab ip }.give p ip)) ∧
    (∀ ip, (k.table.grab ip).slot ip =
        { k.table.slot ip with i_count := (k.table.slot ip).i_count + 1, locked := true } ∧
      ∀ jp, jp ≠ ip → (k.table.grab ip).slot jp = k.table.slot jp) ∧
    ∀ p dev ino dp, k.proc p = .iget dev ino → (∀ ip, ¬ k.table.Stands ip dev ino) →
      k.event fs_ronly isBlk (.run p dp) =
        some (match k.table.free.first with
          | none => k.goTo p (.returned none)
          | some ip => { k with table := k.table.reuse ip dev ino }.goTo p (.reading ip)) := by
  have h := Good.of_run hrun
  obtain ⟨chains, free, hlists⟩ := h.table
  refine ⟨fun ih jh ip jp => h.unique, fun ih ip hip => ?_, ⟨free, hlists.avail, hlists.count⟩,
    fun p dev ino ip dp => h.event_iget dp, fun ip => ?_, fun p dev ino dp => h.event_iget_new dp⟩
  · rw [hlists.onChain_eq] at hip
    exact hlists.home ih ip hip
  · exact ⟨slot_grab_self k.table ip, fun jp => slot_grab_of_ne k.table⟩

/-- An inode is read into the first slot, and then found there. -/
theorem inode_table_found :
    ∃ k : Kernel 2 Unit, Steps (Steps.Of (Kernel.event (fun _ => false) fun _ => false)) boot
        [.iget () 1 5, .run () none, .run () (some ⟨0, 1, 0⟩), .iunlock 0, .iget () 1 5] k ∧
      k.event (fun _ => false) (fun _ => false) (.run () none) =
        some ({ k with table := k.table.grab 0 }.give () 0) := by
  have hrun : Steps (Steps.Of (Kernel.event (n := 2) (fun _ => false) fun _ => false)) boot
      [.iget () 1 5, .run () none, .run () (some ⟨0, 1, 0⟩), .iunlock 0, .iget () 1 5] _ :=
    Steps.of_foldlM rfl
  exact ⟨_, hrun, (inode_table _ _ hrun).2.2.2.1 () 1 5 0 none rfl
    ⟨List.mem_cons_self, rfl, rfl⟩⟩

/-- Behind `iflush` the slots of a device keep its number and those of their inodes, so that another
slot can get the same. For an inode that is mounted on `iget` returns the slot of another. -/
theorem iget_not_unique :
    (∃ k : Kernel 2 Unit, Steps (Steps.Of (Kernel.event (fun _ => false) fun _ => false)) boot
        [.iget () 1 5, .run () none, .run () (some ⟨0, 1, 0⟩), .iput () 0, .run () none, .iflush 1,
          .iget () 1 5, .run () none] k ∧
      ((k.table.slot 0).i_dev, (k.table.slot 0).i_number) = (1, 5) ∧
      ((k.table.slot 1).i_dev, (k.table.slot 1).i_number) = (1, 5)) ∧
    ∃ k k' : Kernel 2 Unit, Steps (Steps.Of (Kernel.event (fun _ => false) fun _ => false)) boot
        [.iget () 1 5, .run () none, .run () (some ⟨0, 1, 0⟩), .mount 0 9, .iunlock 0,
          .iget () 1 5] k ∧
      k.table.Stands 0 1 5 ∧
      Steps (Steps.Of (Kernel.event (fun _ => false) fun _ => false)) k
        [.run () none, .run () none, .run () (some ⟨0, 1, 0⟩)] k' ∧
      k'.proc () = .returned (some 1) ∧ (k'.table.slot 0).i_count = (k.table.slot 0).i_count := by
  refine ⟨⟨_, Steps.of_foldlM rfl, rfl, rfl⟩, _, _, Steps.of_foldlM rfl,
    ⟨List.mem_cons_self, rfl, rfl⟩, Steps.of_foldlM rfl, rfl, rfl⟩

end Kernel

end DiscoBsd.Inode
