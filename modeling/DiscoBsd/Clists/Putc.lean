import DiscoBsd.Clists.Getc

/-!
# Adding characters to a list

`putc` adds a byte at the end of the queue, unless the last block is full and the pool is empty.
`b_to_q` does what as many calls of `putc` do, up to the first one that fails.
-/

namespace DiscoBsd.Clists

open DiscoBsd.Lib

variable {Q : Type} [DecidableEq Q] {pool : List Nat} {k k' : Pool Q} {s : Store Q} {p : Q}
  {owner : Nat → Option Q} {free : List Nat} {queue : Q → Queue}

omit [DecidableEq Q] in
theorem SoundBut.cfreelist_eq_zero {exempt : Q → Prop}
    (h : SoundBut exempt pool k queue owner free) : k.cfreelist = 0 ↔ free = [] := by
  cases free with
  | nil => exact ⟨fun _ => rfl, fun _ => h.chain⟩
  | cons b free =>
      have hb := h.aligned b ((h.owned b).mp List.mem_cons_self).1
      have hhead := h.chain.1
      exact ⟨fun hzero => by omega, fun hnil => nomatch hnil⟩

/-- A byte is written into a block of the list. -/
theorem SoundBut.putAt {b cf cp : Nat} (h : SoundBut (fun other => other = p) pool k queue owner free)
    (howner : owner b = some p) (hpool : b ∈ pool) (hle : b + 4 ≤ cp) (hlt : cp < b + 32)
    (c : UInt8) : SoundBut (fun other => other = p) pool (k.putAt p cf cp c) queue owner free := by
  refine h.write (fun _ hne => Function.update_of_ne hne ..) rfl rfl (fun _ _ _ => rfl) ?_
  intro b' hpool' howner' a hle' hlt'
  refine Function.update_of_ne ?_ ..
  rintro rfl
  have hne : b ≠ b' := by
    rintro rfl
    exact howner' howner
  exact block_disjoint (h.aligned b hpool).1 (h.aligned b' hpool').1 hne hle hlt ⟨hle', hlt'⟩

theorem Pool.list_putAt (k : Pool Q) (p : Q) (cf cp : Nat) (c : UInt8) :
    (k.putAt p cf cp c).list p = ⟨(k.list p).c_cc + 1, cf, cp + 1⟩ :=
  Function.update_self ..

theorem Pool.chars_first (k : Pool Q) (p : Q) {b : Nat} (hb : b % 32 = 0)
    (hnull : k.c_next b = 0) (c : UInt8) : InMemory (k.putAt p (b + 4) (b + 4) c).c_next
      (k.putAt p (b + 4) (b + 4) c).c_info ⟨1, b + 4, b + 5⟩ [b] ⟨[c], 0⟩ := by
  have hself : (k.putAt p (b + 4) (b + 4) c).c_info (b + 4) = c := Function.update_self ..
  have hsingle : Chars (k.putAt p (b + 4) (b + 4) c).c_next (k.putAt p (b + 4) (b + 4) c).c_info
      (b + 5) (b + 4) [b] [(k.putAt p (b + 4) (b + 4) c).c_info (b + 4)] := .single hb hnull
  rw [hself] at hsingle
  exact .chain hsingle (by omega)

/-- A list with room in its last block takes a byte. -/
theorem SoundBut.add_same {cf cl skip : Nat} {blocks : List Nat} {content : List UInt8}
    (h : SoundBut (fun other => other = p) pool k s.queue owner free) (hfree : s.free = free.length)
    (hl : k.list p = ⟨(content.length : Nat), cf, cl⟩) (hq : s.queue p = ⟨content, skip⟩)
    (hchars : Chars k.c_next k.c_info cl cf blocks content) (hskip : cf % 32 = skip + 4)
    (hnodup : blocks.Nodup) (howned : ∀ b, b ∈ blocks ↔ b ∈ pool ∧ owner b = some p)
    (hcl : cl % 32 ≠ 0) (c : UInt8) :
    Sound pool (k.putAt p cf cl c) (s.set p ((s.queue p).append [c])) := by
  obtain ⟨before, b, heq, hb, hlt, hle, -⟩ := hchars.exists_last
  have hin := (howned b).mp (by simp [heq])
  have hblocks := (InMemory.chain hchars hskip).blocks_eq
  refine (h.putAt hin.2 hin.1 (by omega) (by omega) c).close ⟨?_, hnodup, howned⟩ ?_
  · rw [k.list_putAt, hl, hq]
    have hlen : ((content.length : Nat) : Int) + 1 = (content ++ [c]).length := by simp
    dsimp only
    rw [hlen]
    exact .chain (hchars.snoc_same hnodup hcl c) hskip
  · rw [hq, hblocks, hfree]

/-- A list takes a byte in a block that it takes from the pool. -/
theorem SoundBut.add_next {b₂ cf cl skip : Nat} {blocks : List Nat} {content : List UInt8}
    (h : SoundBut (fun other => other = p) pool k s.queue owner (b₂ :: free))
    (hfree : s.free = (b₂ :: free).length)
    (hl : k.list p = ⟨(content.length : Nat), cf, cl⟩) (hq : s.queue p = ⟨content, skip⟩)
    (hchars : Chars k.c_next k.c_info cl cf blocks content) (hskip : cf % 32 = skip + 4)
    (hnodup : blocks.Nodup) (howned : ∀ b, b ∈ blocks ↔ b ∈ pool ∧ owner b = some p)
    (hcl : cl % 32 = 0) (c : UInt8) :
    Sound pool ((k.link (cl - 32)).take.putAt p cf (b₂ + 4) c)
      (s.set p ((s.queue p).append [c])) := by
  obtain ⟨before, b, heq, hb, hlt, hle, -⟩ := hchars.exists_last
  have hcl' : cl - 32 = b := by omega
  have hin := (howned b).mp (by simp [heq])
  have hblocks := (InMemory.chain hchars hskip).blocks_eq
  have hlink : SoundBut (fun other => other = p) pool (k.link b) s.queue owner (b₂ :: free) := by
    refine h.relink _ fun b' _ howner => Function.update_of_ne ?_ ..
    rintro rfl
    exact howner hin.2
  obtain ⟨hhead, hpool, hnone, htake⟩ := hlink.take
  replace hhead : k.cfreelist = b₂ := hhead
  obtain ⟨hb₂, -⟩ := h.aligned b₂ hpool
  have hnotin : b₂ ∉ blocks := fun hmem => nomatch ((howned b₂).mp hmem).2.symm.trans hnone
  have hne : b₂ ≠ b := by
    rintro rfl
    exact hnotin (by simp [heq])
  rw [hcl']
  refine (htake.putAt (Function.update_self ..) hpool (Nat.le_refl _) (by omega) c).close
    ⟨?_, ?_, SoundBut.owned_take hpool howned⟩ ?_
  · have hnew : ((k.link b).take.putAt p cf (b₂ + 4) c).c_info (b₂ + 4) = c :=
      Function.update_self ..
    have hnext : ((k.link b).take.putAt p cf (b₂ + 4) c).c_next =
        Function.update (Function.update k.c_next b b₂) b₂ 0 := by
      show Function.update (Function.update k.c_next b k.cfreelist) k.cfreelist 0 = _
      rw [hhead]
    have hsnoc := hchars.snoc_next ((k.link b).take.putAt p cf (b₂ + 4) c).c_next
      ((k.link b).take.putAt p cf (b₂ + 4) c).c_info hnodup hcl hb₂ ?_ ?_ ?_ ?_
    · rw [hnew] at hsnoc
      have hlen : ((content.length : Nat) : Int) + 1 = (content ++ [c]).length := by simp
      have hlist : ((k.link b).take.putAt p cf (b₂ + 4) c).list p =
          ⟨((content ++ [c]).length : Nat), cf, b₂ + 5⟩ := by
        rw [Pool.list_putAt]
        show Clist.mk ((k.list p).c_cc + 1) cf (b₂ + 5) = _
        rw [hl, ← hlen]
      rw [hlist, hq]
      exact .chain hsnoc hskip
    · rw [hcl', hnext, Function.update_of_ne hne.symm, Function.update_self]
    · rw [hnext, Function.update_self]
    · intro b' hmem hne'
      rw [hcl'] at hne'
      have hne₂ : b' ≠ b₂ := by
        rintro rfl
        exact hnotin hmem
      rw [hnext, Function.update_of_ne hne₂, Function.update_of_ne hne']
    · intro b' hmem a hle' hlt'
      refine Function.update_of_ne ?_ ..
      rintro rfl
      have hne₂ : b₂ ≠ b' := by
        rintro rfl
        exact hnotin hmem
      exact block_disjoint hb₂ (hchars.aligned b' hmem) hne₂ (Nat.le_refl _) (by omega)
        ⟨hle', hlt'⟩
  · rw [List.nodup_append]
    refine ⟨hnodup, List.nodup_singleton b₂, ?_⟩
    rintro b' hmem _ hmem₂ rfl
    rw [List.mem_singleton.mp hmem₂] at hmem
    exact hnotin hmem
  · rw [hq, hblocks, hfree, List.length_append, List.length_cons, List.length_singleton]
    omega

/-- `putc` fails when there is no room, and adds the character when there is. -/
theorem Sound.putc (h : Sound pool k s) (c : Int) (p : Q) :
    (s.room p = 0 → k.putc c p = (-1, k)) ∧
    (0 < s.room p → (k.putc c p).1 = 0 ∧
      Sound pool (k.putc c p).2 (s.set p ((s.queue p).append [UInt8.ofInt c]))) := by
  obtain ⟨owner, free, hsound, hfree⟩ := h
  obtain ⟨hbut, blocks, hmemory, hnodup, howned⟩ := hsound.open p
  generalize hl : k.list p = l at hmemory
  generalize hq : s.queue p = q at hmemory
  have hblocks := hmemory.blocks_eq
  have hslack := hmemory.slack_eq
  have hroom : s.room p = (s.queue p).slack + CBSIZE * free.length := by
    rw [Store.room, hfree]
  rw [hq, hslack] at hroom
  unfold Pool.putc
  rw [hl]
  cases hmemory with
  | empty =>
      rw [if_pos rfl, Nat.zero_add] at hroom
      dsimp only
      rw [if_pos (Or.inl rfl)]
      cases free with
      | nil =>
          rw [if_pos (hbut.cfreelist_eq_zero.mpr rfl)]
          exact ⟨fun _ => rfl, fun hpos => absurd hpos (by rw [hroom]; exact Nat.lt_irrefl 0)⟩
      | cons b free =>
          obtain ⟨hhead, hpool, -, htake⟩ := hbut.take
          obtain ⟨hb, hb0⟩ := hbut.aligned b hpool
          rw [hhead, if_neg (by omega)]
          refine ⟨fun hzero => ?_, fun _ => ⟨rfl, ?_⟩⟩
          · rw [hroom, List.length_cons] at hzero
            simp only [CBSIZE, CBLOCK, LINK] at hzero
            omega
          · refine (htake.putAt (Function.update_self ..) hpool (Nat.le_refl _) (by omega)
              (UInt8.ofInt c)).close
              ⟨?_, List.nodup_singleton b, SoundBut.owned_take hpool howned⟩ ?_
            · have hnull : k.take.c_next b = 0 := by
                rw [← hhead]
                exact Function.update_self ..
              have hlist : (k.take.putAt p (b + 4) (b + 4) (UInt8.ofInt c)).list p =
                  ⟨1, b + 4, b + 5⟩ := by
                rw [Pool.list_putAt]
                show Clist.mk ((k.list p).c_cc + 1) (b + 4) (b + 5) = _
                rw [hl]
                rfl
              rw [hlist]
              exact k.take.chars_first p hb hnull (UInt8.ofInt c)
            · rw [hq, hblocks, hfree, List.length_cons, List.length_singleton, List.length_nil]
  | @chain cf cl skip _ content hchars hskip =>
      obtain ⟨before, b, heq, hb, hlt, hle, hnull⟩ := hchars.exists_last
      have hin := (howned b).mp (by simp [heq])
      dsimp only at hroom ⊢
      rw [if_neg (by omega)] at hroom
      rw [if_neg (by omega)]
      by_cases hcl : cl % 32 = 0
      · have hcl' : cl - 32 = b := by omega
        have hcl'' : cl % CBLOCK = 0 := hcl
        rw [if_pos hcl'']
        cases free with
        | nil =>
            have hzero := hbut.cfreelist_eq_zero.mpr rfl
            have hnext := Function.update_eq_self b k.c_next
            rw [hnull, ← hzero] at hnext
            have hsame : k.link (cl - 32) = k := by
              rw [hcl', Pool.link, hnext]
            have hzero' : (k.link (cl - 32)).cfreelist = 0 := hzero
            rw [if_pos hzero']
            refine ⟨fun _ => congrArg (Prod.mk (-1)) hsame, fun hpos => ?_⟩
            rw [hroom, List.length_nil] at hpos
            omega
        | cons b₂ free =>
            have hhead : (k.link (cl - 32)).cfreelist = b₂ := hbut.chain.1
            have hb₂ := hbut.aligned b₂ ((hbut.owned b₂).mp List.mem_cons_self).1
            have hadd := hbut.add_next hfree hl hq hchars hskip hnodup howned hcl (UInt8.ofInt c)
            have hne : (k.link (cl - CBLOCK)).cfreelist ≠ 0 := by
              rw [hhead]
              omega
            rw [if_neg hne]
            refine ⟨fun hzero => ?_, fun _ => ⟨rfl, ?_⟩⟩
            · rw [hroom, List.length_cons] at hzero
              simp only [CBSIZE, CBLOCK, LINK] at hzero
              omega
            · rw [hhead, ← hq]
              exact hadd
      · have hcl' : ¬ cl % CBLOCK = 0 := hcl
        rw [if_neg hcl']
        refine ⟨fun hzero => ?_, fun _ => ⟨rfl, ?_⟩⟩
        · rw [hroom] at hzero
          omega
        · rw [← hq]
          exact hbut.add_same hfree hl hq hchars hskip hnodup howned hcl (UInt8.ofInt c)

/-! ## Repeated `putc` -/

/-- Calls of `putc` up to the first one that fails; the characters that are left are counted. -/
def Pool.putcs (p : Q) : List UInt8 → Pool Q → Nat × Pool Q
  | [], k => (0, k)
  | c :: cs, k =>
      if (k.putc c.toNat p).1 = 0 then putcs p cs (k.putc c.toNat p).2
      else ((c :: cs).length, (k.putc c.toNat p).2)

theorem Queue.append_append (q : Queue) (cs cs' : List UInt8) :
    (q.append cs).append cs' = q.append (cs ++ cs') := by
  simp [append]

omit [DecidableEq Q] in
theorem Store.room_eq (s : Store Q) (p : Q) :
    s.room p = CBSIZE * ((s.queue p).blocks + s.free) -
      ((s.queue p).skip + (s.queue p).content.length) := by
  simp only [room, Queue.slack, Queue.blocks, CBSIZE, CBLOCK, LINK]
  omega

omit [DecidableEq Q] in
theorem Store.blocks_append_le (s : Store Q) (p : Q) {cs : List UInt8}
    (h : cs.length ≤ s.room p) :
    ((s.queue p).append cs).blocks ≤ s.free + (s.queue p).blocks := by
  have hroom := s.room_eq p
  simp only [Queue.append, Queue.blocks, CBSIZE, CBLOCK, LINK, List.length_append] at hroom ⊢
  omega

theorem Store.room_append (s : Store Q) (p : Q) {cs : List UInt8} (h : cs.length ≤ s.room p) :
    (s.set p ((s.queue p).append cs)).room p = s.room p - cs.length := by
  have hle := s.blocks_append_le p h
  have hroom := s.room_eq p
  rw [room_eq, set_queue]
  simp only [set, Queue.append, Queue.blocks, CBSIZE, CBLOCK, LINK, List.length_append] at *
  omega

theorem Sound.putcs (cs : List UInt8) (h : Sound pool k s) :
    (k.putcs p cs).1 = cs.length - s.room p ∧
      Sound pool (k.putcs p cs).2 (s.set p ((s.queue p).append (cs.take (s.room p)))) := by
  induction cs generalizing k s with
  | nil =>
      have hnil : (s.queue p).append [] = s.queue p := by
        simp [Queue.append]
      rw [List.take_nil, hnil, Store.set_self]
      exact ⟨(Nat.zero_sub _).symm, h⟩
  | cons c cs ih =>
      obtain ⟨hfail, hadd⟩ := h.putc c.toNat p
      rw [ofInt_toNat] at hadd
      rw [Pool.putcs]
      by_cases hroom : s.room p = 0
      · have hnil : (s.queue p).append [] = s.queue p := by
          simp [Queue.append]
        rw [hfail hroom, if_neg (show ¬ (-1 : Int) = 0 by decide), hroom, List.take_zero, hnil, Store.set_self]
        exact ⟨rfl, h⟩
      · obtain ⟨hzero, hsound⟩ := hadd (Nat.pos_of_ne_zero hroom)
        obtain ⟨hleft, hrest⟩ := ih hsound
        have hone : [c].length ≤ s.room p := by
          rw [List.length_singleton]
          omega
        have htake : [c] ++ cs.take (s.room p - 1) = (c :: cs).take (s.room p) := by
          obtain ⟨n, hn⟩ : ∃ n, s.room p = n + 1 := ⟨s.room p - 1, by omega⟩
          rw [hn]
          rfl
        rw [s.room_append p hone, List.length_singleton] at hleft hrest
        rw [s.set_set p (s.blocks_append_le p hone), Store.set_queue, Queue.append_append,
          htake] at hrest
        rw [if_pos hzero, hleft, List.length_cons]
        exact ⟨by omega, hrest⟩

/-! ## Whole blocks -/

/-- A list in the middle of `b_to_q`, as it would be if the routine stopped here. -/
def Pool.fill (k : Pool Q) (p : Q) (c_cc : Int) (c_cf cq : Nat) : Pool Q := k.set p ⟨c_cc, c_cf, cq⟩

/-- Copying a run into one block is calling `putc` for each of its characters. -/
theorem Pool.putcs_store (k : Pool Q) (p : Q) (cf : Nat) {nc cq : Nat} {cc : Int} {cs : List UInt8}
    (hcc : 0 ≤ cc) (hcq : 0 < cq) (hlen : nc ≤ cs.length)
    (hroom : nc = 0 ∨ cq % 32 ≠ 0 ∧ nc ≤ 32 - cq % 32) :
    putcs p cs (k.fill p cc cf cq) =
      putcs p (cs.drop nc) ({ k with c_info := store k.c_info cq (cs.take nc) }.fill p (cc + nc) cf
        (cq + nc)) := by
  induction nc generalizing k cc cq cs with
  | zero =>
      rw [List.drop_zero, List.take_zero, Nat.add_zero, Int.natCast_zero, Int.add_zero]
      rfl
  | succ nc ih =>
      obtain ⟨c, cs, rfl⟩ : ∃ c cs', cs = c :: cs' := by
        cases cs with
        | nil => exact absurd hlen (Nat.not_succ_le_zero nc)
        | cons c cs => exact ⟨c, cs, rfl⟩
      simp only [List.length_cons] at hlen
      have hlist : (k.fill p cc cf cq).list p = ⟨cc, cf, cq⟩ := list_set ..
      have hputc : (k.fill p cc cf cq).putc c.toNat p =
          (0, { k with c_info := Function.update k.c_info cq c }.fill p (cc + 1) cf (cq + 1)) := by
        have hcq' : ¬ cq % CBLOCK = 0 := by
          simp only [CBLOCK]
          omega
        unfold putc
        rw [hlist]
        dsimp only
        rw [if_neg (by omega), if_neg hcq', ofInt_toNat, putAt, hlist]
        simp only [fill, set, Function.update_idem]
      have hcc' : cc + 1 + (nc : Int) = cc + ((nc + 1 : Nat) : Int) := by omega
      have hcq'' : cq + 1 + nc = cq + (nc + 1) := by omega
      rw [putcs, hputc, if_pos rfl,
        ih _ (by omega) (Nat.succ_pos cq) (by omega) (by omega), hcc', hcq'']
      rfl

/-- An address in a block of the list, or behind the block. -/
def Within (pool : List Nat) (owner : Nat → Option Q) (p : Q) (cq : Nat) : Prop :=
  ∃ b ∈ pool, owner b = some p ∧ b + 4 ≤ cq ∧ cq ≤ b + 32

/-- `putc` on a list that ends in a block with room. -/
theorem Pool.putc_fill (k : Pool Q) (p : Q) {cc : Int} {cf cq : Nat} (hcc : 0 ≤ cc) (hcq : 0 < cq)
    (hroom : cq % 32 ≠ 0) (c : Int) : (k.fill p cc cf cq).putc c p =
      (0, (k.fill p cc cf cq).putAt p cf cq (UInt8.ofInt c)) := by
  have hlist : (k.fill p cc cf cq).list p = ⟨cc, cf, cq⟩ := list_set ..
  have hcq' : ¬ cq % CBLOCK = 0 := hroom
  unfold putc
  rw [hlist]
  dsimp only
  rw [if_neg (by omega), if_neg hcq']

/-- A place for the next character is found as `putc` finds it. -/
theorem SoundBut.place {cq : Nat} {cc : Int}
    (h : SoundBut (fun other => other = p) pool k queue owner free) (hin : Within pool owner p cq)
    (hcc : 0 ≤ cc) (cf : Nat) (c : Int) :
    (∃ k', k.place cq = (none, k') ∧ k'.list = k.list ∧
      (k.fill p cc cf cq).putc c p = (-1, k'.fill p cc cf cq)) ∨
    ∃ k' cq' owner' free', k.place cq = (some cq', k') ∧ k'.list = k.list ∧
      SoundBut (fun other => other = p) pool k' queue owner' free' ∧ Within pool owner' p cq' ∧
      cq' % 32 ≠ 0 ∧ (k.fill p cc cf cq).putc c p = (k'.fill p cc cf cq').putc c p := by
  obtain ⟨b, hpool, howner, hle, hle'⟩ := hin
  have hb := (h.aligned b hpool).1
  unfold Pool.place
  by_cases hcq : cq % 32 = 0
  · have hcq' : cq % CBLOCK = 0 := hcq
    have hend : cq - CBLOCK = b := by
      show cq - 32 = b
      omega
    have hlist : (k.fill p cc cf cq).list p = ⟨cc, cf, cq⟩ := Pool.list_set ..
    have hputc : (k.fill p cc cf cq).putc c p =
        if k.cfreelist = 0 then (-1, (k.link b).fill p cc cf cq)
        else (0, ((k.link b).fill p cc cf cq).take.putAt p cf (k.cfreelist + LINK)
          (UInt8.ofInt c)) := by
      unfold Pool.putc
      rw [hlist]
      dsimp only
      rw [if_neg (by omega), if_pos hcq', hend]
      rfl
    rw [if_pos hcq', hend, hputc]
    have hlink : SoundBut (fun other => other = p) pool (k.link b) queue owner free := by
      refine h.relink _ fun b' _ howner' => Function.update_of_ne ?_ ..
      rintro rfl
      exact howner' howner
    have hhead : (k.link b).cfreelist = k.cfreelist := rfl
    dsimp only
    rw [hhead]
    cases free with
    | nil =>
        rw [if_pos (h.cfreelist_eq_zero.mpr rfl), if_pos (h.cfreelist_eq_zero.mpr rfl)]
        exact Or.inl ⟨_, rfl, rfl, rfl⟩
    | cons b₂ free =>
        obtain ⟨hhead₂, hpool₂, -, htake⟩ := hlink.take
        have hb₂ := h.aligned b₂ hpool₂
        have hfirst : k.cfreelist = b₂ := hhead₂
        rw [hfirst, if_neg (by omega), if_neg (by omega)]
        refine Or.inr ⟨_, b₂ + 4, _, _, rfl, rfl, htake,
          ⟨b₂, hpool₂, Function.update_self .., Nat.le_refl _, by omega⟩, by omega, ?_⟩
        rw [Pool.putc_fill _ p hcc (by omega) (by omega)]
        simp [Pool.putAt, Pool.fill, Pool.set, Pool.take]
  · have hcq' : ¬ cq % CBLOCK = 0 := hcq
    rw [if_neg hcq']
    exact Or.inr ⟨k, cq, owner, free, rfl, rfl, h, ⟨b, hpool, howner, hle, hle'⟩, hcq, rfl⟩

theorem SoundBut.bToQLoop {fuel : Nat}
    (h : SoundBut (fun other => other = p) pool k queue owner free) (cs : List UInt8) (cc : Int)
    (cf cq : Nat) (hin : Within pool owner p cq) (hcc : 0 ≤ cc) (hfuel : cs.length ≤ fuel) :
    ∃ rest cq' k', Pool.bToQLoop fuel cs cq k = some (rest, cq', k') ∧
      rest.length ≤ cs.length ∧ k'.list = k.list ∧
      (k.fill p cc cf cq).putcs p cs =
        (rest.length, k'.fill p (cc + (cs.length - rest.length : Nat)) cf cq') := by
  induction fuel generalizing k owner free cq cs cc with
  | zero =>
      obtain rfl : cs = [] := List.length_eq_zero_iff.mp (Nat.le_zero.mp hfuel)
      refine ⟨[], cq, k, rfl, Nat.le_refl _, rfl, ?_⟩
      simp [Pool.putcs]
  | succ fuel ih =>
      cases cs with
      | nil =>
          refine ⟨[], cq, k, rfl, Nat.le_refl _, rfl, ?_⟩
          simp [Pool.putcs]
      | cons c cs =>
          rw [Pool.bToQLoop]
          rcases h.place hin hcc cf c.toNat with
            ⟨k', hplace, hlist, hputc⟩ | ⟨k', cq', owner', free', hplace, hlist, hsound, hin', hroom, hputc⟩
          · rw [hplace]
            refine ⟨c :: cs, cq, k', rfl, Nat.le_refl _, hlist, ?_⟩
            rw [Pool.putcs, hputc, if_neg (show ¬ (-1 : Int) = 0 by decide), Nat.sub_self,
              Int.natCast_zero, Int.add_zero]
          · rw [hplace]
            dsimp only
            have hsame : (k.fill p cc cf cq).putcs p (c :: cs) =
                (k'.fill p cc cf cq').putcs p (c :: cs) := by
              rw [Pool.putcs, Pool.putcs, hputc]
            generalize hnc : min (c :: cs).length (CBLOCK - cq' % CBLOCK) = nc
            have hbounds : 0 < nc ∧ nc ≤ (c :: cs).length ∧ nc ≤ 32 - cq' % 32 := by
              simp only [CBLOCK, List.length_cons] at hnc ⊢
              omega
            obtain ⟨hnc0, hnclen, hncroom⟩ := hbounds
            obtain ⟨b, hpool, howner, hle, hle'⟩ := hin'
            have hb := (hsound.aligned b hpool).1
            have hchunk := k'.putcs_store p cf hcc (by omega) hnclen (Or.inr ⟨hroom, hncroom⟩)
            have hstore : SoundBut (fun other => other = p) pool
                { k' with c_info := store k'.c_info cq' ((c :: cs).take nc) } queue owner' free' := by
              refine hsound.write (fun _ _ => rfl) rfl rfl (fun _ _ _ => rfl) ?_
              intro b' hpool' howner' a hlea hlta
              have hb' := (hsound.aligned b' hpool').1
              have hne : b ≠ b' := by
                rintro rfl
                exact howner' howner
              have hlen : ((c :: cs).take nc).length = nc := by
                rw [List.length_take]
                omega
              by_cases hlt : a < cq'
              · exact store_of_lt hlt
              · exact store_of_ge (by omega)
            obtain ⟨rest, cq'', k'', hloop, hrest, hlist', hputcs⟩ :=
              ih hstore ((c :: cs).drop nc) (cc + nc) (cq' + nc)
                ⟨b, hpool, howner, by omega, by omega⟩ (by omega)
                (by
                  simp only [List.length_drop, List.length_cons] at hfuel ⊢
                  omega)
            rw [List.length_drop] at hrest hputcs
            have hsum : cc + (nc : Int) + (((c :: cs).length - nc - rest.length : Nat) : Int) =
                cc + (((c :: cs).length - rest.length : Nat) : Int) := by omega
            rw [hsum] at hputcs
            exact ⟨rest, cq'', k'', hloop, by omega, hlist'.trans hlist,
              hsame.trans (hchunk.trans hputcs)⟩

/-- `b_to_q` does what calls of `putc` do, up to the first one that fails. -/
theorem Sound.b_to_q_eq (h : Sound pool k s) (cp : List UInt8) (q : Q) :
    k.b_to_q cp q = some (k.putcs q cp) := by
  obtain ⟨owner, free, hsound, -⟩ := h
  obtain ⟨hbut, blocks, hmemory, -, howned⟩ := hsound.open q
  generalize hl : k.list q = l at hmemory
  generalize s.queue q = queue at hmemory
  unfold Pool.b_to_q
  split
  · rename_i hnil
    rw [hnil]
    rfl
  · rename_i hne
    obtain ⟨c, cs, rfl⟩ := List.exists_cons_of_ne_nil hne
    dsimp only
    cases hmemory with
    | empty =>
        rw [hl, if_pos (Or.inl rfl)]
        have hputc : k.putc c.toNat q = if k.cfreelist = 0 then (-1, k)
            else (0, k.take.putAt q (k.cfreelist + LINK) (k.cfreelist + LINK) c) := by
          unfold Pool.putc
          rw [hl]
          dsimp only
          rw [if_pos (Or.inl rfl), ofInt_toNat]
        cases free with
        | nil =>
            have hzero := hbut.cfreelist_eq_zero.mpr rfl
            rw [if_pos hzero] at hputc ⊢
            rw [Pool.putcs, hputc, if_neg (show ¬ (-1 : Int) = 0 by decide)]
            dsimp only
            rw [Nat.sub_self, Int.natCast_zero, Int.add_zero, Pool.set_self hl]
        | cons b free =>
            obtain ⟨hhead, hpool, -, htake⟩ := hbut.take
            have hb := hbut.aligned b hpool
            rw [hhead, if_neg (by omega)] at hputc ⊢
            have hset := htake.set ⟨0, b + 4, 0⟩
            obtain ⟨rest, cq', k', hloop, hrest, hlist, hputcs⟩ :=
              hset.bToQLoop (c :: cs) 0 (b + 4) (b + 4)
                ⟨b, hpool, Function.update_self .., Nat.le_refl _, by omega⟩ (Int.le_refl 0)
                (Nat.le_refl _)
            rw [hloop, Option.map_some]
            have hsame : ((k.take.set q ⟨0, b + 4, 0⟩).fill q 0 (b + 4) (b + 4)).putcs q (c :: cs) =
                k.putcs q (c :: cs) := by
              rw [Pool.putcs, Pool.putcs, Pool.putc_fill _ q (Int.le_refl 0) (by omega) (by omega),
                hputc, ofInt_toNat]
              simp [Pool.putAt, Pool.fill, Pool.set, Pool.take, hl]
            rw [← hsame, hputcs]
            have hrecord : k'.list q = ⟨0, b + 4, 0⟩ := by
              rw [hlist]
              exact Pool.list_set ..
            dsimp only
            rw [hrecord]
            rfl
    | @chain cf cl skip _ content hchars hskip =>
        obtain ⟨before, b, heq, hb, hlt, hle, -⟩ := hchars.exists_last
        obtain ⟨hpool, howner⟩ := (howned b).mp (by simp [heq])
        rw [hl]
        dsimp only
        rw [if_neg (by omega)]
        obtain ⟨rest, cq', k', hloop, hrest, hlist, hputcs⟩ :=
          hbut.bToQLoop (c :: cs) content.length cf cl ⟨b, hpool, howner, by omega, hle⟩
            (Int.natCast_nonneg _) (Nat.le_refl _)
        have hsame : k.fill q content.length cf cl = k := Pool.set_self hl
        rw [hsame] at hputcs
        rw [hloop, Option.map_some, hputcs]
        dsimp only
        rw [hlist, hl]
        rfl

end DiscoBsd.Clists
