import DiscoBsd.Output.Expansion

/-!
# Terminal output is complete

What left the output queue, followed by what is still in it, is what was there before the write followed
by the expansion of the characters that the writer is done with; a write that returns without error is
done with all of them. This holds along every run in which no expansion is cut short: when the pool runs
dry, it does so before a carriage return or the spaces of a tab, and not within.
-/

namespace DiscoBsd.Output

open DiscoBsd.Lib DiscoBsd.Clists

variable {Q : Type}

/-! ## Room -/

/-- How many characters a list can take: the rest of its last block, and the pool. -/
def room (k : Pool Q) (p : Q) : Nat :=
  (if (k.list p).c_cl = 0 then 0 else 31 - ((k.list p).c_cl - 1) % 32) + k.cfreecount.toNat

variable {pool : List Nat}

theorem room_eq {k : Pool Q} {s : Store Q} (h : Sound pool k s) (p : Q) : room k p = s.room p := by
  obtain ⟨owner, free, hsound, hfree⟩ := h
  obtain ⟨blocks, hholds⟩ := hsound.holds p id
  have hcount : k.cfreecount.toNat = CBSIZE * s.free := by
    rw [hsound.count, hfree]
    exact Int.toNat_natCast _
  rw [room, Store.room, hholds.memory.slack_eq, hcount]

variable [DecidableEq Q]

/-- A newline whose carriage return was put has room for the line feed, and a tab has room for all of its
spaces or for none. -/
def Kernel.Whole (tp : Tty Q) (k : Kernel Q) : Prop :=
  match k.control, k.obuf with
  | .newline, _ => 0 < room k.clists tp.t_outq
  | .whileCc, c :: _ =>
      c &&& 0x7f = 9 → tp.t_flags.xtabs = true → tp.t_flags.literal = false →
        room k.clists tp.t_outq = 0 ∨ (nextStop k.t_col - k.t_col).toNat ≤ room k.clists tp.t_outq
  | _, _ => True

def Kernel.Allowed (tp : Tty Q) (k : Kernel Q) : Event Q → Prop
  | .run _ _ _ => k.Whole tp
  | _ => True

/-- The steps of a run in which no expansion is cut short. -/
def Step (char_signed : Bool) (tp : Tty Q) (k : Kernel Q) (e : Event Q) (k' : Kernel Q) : Prop :=
  k.Allowed tp e ∧ k.event char_signed tp e = some k'

/-! ## The invariant -/

/-- The text and the queue, with the part of an expansion that is already put. -/
structure Body (pool : List Nat) (tp : Tty Q) (before data : List UInt8) (t_col : Int)
    (part : List UInt8) (k : Kernel Q) (s : Store Q) : Prop where
  sound : Sound pool k.clists s
  text : k.sent ++ (k.obuf ++ k.uio) = data
  out : k.taken ++ (s.queue tp.t_outq).content =
    before ++ expand tp.t_flags t_col k.sent ++ part
  column : k.t_col = columns tp.t_flags t_col k.sent

/-- What is put of the newline at which the writer is. -/
def Control.part : Control → List UInt8
  | .newline => [13]
  | _ => []

/-- What a control point says of the rest of the text. -/
def Kernel.At (tp : Tty Q) (k : Kernel Q) : Prop :=
  match k.control with
  | .newline =>
      ∃ c rest, k.obuf = c :: rest ∧ c &&& 0x7f = 10 ∧ tp.t_flags.crmod = true ∧
        tp.t_flags.literal = false
  | .returned error uio_resid =>
      error = .eio ∨
        uio_resid = k.uio.length + k.obuf.length ∧ (tp.ndelay = false → uio_resid = 0)
  | _ => True

structure Good (pool : List Nat) (tp : Tty Q) (before data : List UInt8) (t_col : Int)
    (k : Kernel Q) (s : Store Q) : Prop where
  body : Body pool tp before data t_col k.control.part k s
  at_control : k.At tp

section Steps

variable {tp : Tty Q} {before data : List UInt8} {t_col : Int} {part : List UInt8} {k : Kernel Q}
  {s : Store Q}

omit [DecidableEq Q] in
theorem Body.good {c : Control} (h : Body pool tp before data t_col [] k s)
    (hpart : c.part = []) (hat : ({ k with control := c } : Kernel Q).At tp) :
    Good pool tp before data t_col { k with control := c } s := by
  refine ⟨⟨h.sound, h.text, ?_, h.column⟩, hat⟩
  rw [hpart]
  exact h.out

omit [DecidableEq Q] in
theorem Body.wait (h : Body pool tp before data t_col [] k s) :
    Good pool tp before data t_col (k.wait tp) s := by
  rw [Kernel.wait]
  split
  · rename_i hndelay
    refine h.good rfl (.inr ⟨rfl, fun hblock => ?_⟩)
    rw [hndelay] at hblock
    cases hblock
  · exact h.good rfl trivial

theorem Body.put (h : Body pool tp before data t_col part k s) {cs : List UInt8} {clists : Pool Q}
    (hsound : Sound pool clists (s.set tp.t_outq ((s.queue tp.t_outq).append cs))) :
    Body pool tp before data t_col (part ++ cs) { k with clists := clists }
      (s.set tp.t_outq ((s.queue tp.t_outq).append cs)) := by
  refine ⟨hsound, h.text, ?_, h.column⟩
  rw [Store.set_queue, Queue.append, ← List.append_assoc, h.out, List.append_assoc]

omit [DecidableEq Q] in
/-- An expansion is complete. -/
theorem Body.next {c : UInt8} {rest : List UInt8} {column : Int}
    (h : Body pool tp before data t_col (shown tp.t_flags k.t_col c) k s)
    (hobuf : k.obuf = c :: rest) (hcolumn : column = advance tp.t_flags k.t_col c) :
    Good pool tp before data t_col (k.next tp c column) s := by
  have hbody : Body pool tp before data t_col []
      { k with t_col := column, obuf := k.obuf.tail, sent := k.sent ++ [c] } s := by
    refine ⟨h.sound, ?_, ?_, ?_⟩
    · have htext := h.text
      rw [hobuf] at htext
      rw [hobuf, List.tail_cons, List.append_assoc]
      exact htext
    · rw [expand_append, expand_single, ← h.column, List.append_nil, ← List.append_assoc]
      exact h.out
    · show column = columns tp.t_flags t_col (k.sent ++ [c])
      rw [columns_append, ← h.column, hcolumn]
      rfl
  rw [Kernel.next]
  dsimp only
  split
  · exact hbody.good rfl trivial
  · exact hbody.good rfl trivial

/-- The last character of an expansion. -/
theorem Body.ttyoutputEnd {c : UInt8} {rest : List UInt8}
    (h : Body pool tp before data t_col part k s) (hflusho : tp.t_flags.flusho = false)
    (hliteral : tp.t_flags.literal = false) (hobuf : k.obuf = c :: rest)
    (hshown : part ++ [c &&& 0x7f] = shown tp.t_flags k.t_col c)
    (hroom : s.room tp.t_outq = 0 → part = []) :
    ∃ s', Good pool tp before data t_col (k.ttyoutputEnd tp c) s' := by
  obtain ⟨hfail, hadd⟩ := h.sound.putc (c &&& 0x7f).toNat tp.t_outq
  rw [ofInt_toNat] at hadd
  rw [Kernel.ttyoutputEnd]
  simp only [hflusho, Bool.false_eq_true, if_false]
  by_cases hzero : s.room tp.t_outq = 0
  · rw [hroom hzero] at h
    rw [hfail hzero]
    exact ⟨s, h.wait⟩
  · obtain ⟨hok, hsound⟩ := hadd (Nat.pos_of_ne_zero hzero)
    rw [if_neg (not_not.mpr hok)]
    have hbody := h.put hsound
    rw [hshown] at hbody
    exact ⟨_, hbody.next hobuf (by rw [column_eq, advance, hliteral]; rfl)⟩

theorem Body.ttyoutputTab {c : UInt8} {rest : List UInt8} {k' : Kernel Q}
    (h : Body pool tp before data t_col [] k s) (hflusho : tp.t_flags.flusho = false)
    (hliteral : tp.t_flags.literal = false) (hobuf : k.obuf = c :: rest) (htab : c &&& 0x7f = 9)
    (hxtabs : tp.t_flags.xtabs = true)
    (hroom : s.room tp.t_outq = 0 ∨ (nextStop k.t_col - k.t_col).toNat ≤ s.room tp.t_outq)
    (hstep : k.ttyoutputTab tp c = some k') :
    ∃ s', Good pool tp before data t_col k' s' := by
  have hstop : 8 - k.t_col % 8 = nextStop k.t_col - k.t_col := by
    rw [nextStop]
    omega
  have hspaces : 0 < (nextStop k.t_col - k.t_col).toNat := by
    rw [nextStop]
    omega
  rw [Kernel.ttyoutputTab] at hstep
  simp only [hflusho, Bool.false_eq_true, if_false, hstop, h.sound.b_to_q_eq, Option.map_some,
    Option.some.injEq] at hstep
  generalize hn : (nextStop k.t_col - k.t_col).toNat = n at hstep hspaces hroom
  obtain ⟨hleft, hsound⟩ := h.sound.putcs (p := tp.t_outq) (List.replicate n 32)
  rw [hleft, List.length_replicate] at hstep
  rcases hroom with hzero | hle
  · rw [hzero, Nat.sub_zero, Nat.sub_self, if_pos rfl] at hstep
    rw [hzero, List.take_zero] at hsound
    have hbody := h.put hsound
    rw [List.append_nil] at hbody
    rw [← hstep]
    exact ⟨_, hbody.wait⟩
  · have hall : n - (n - s.room tp.t_outq) = n := by omega
    rw [hall, if_neg (Nat.ne_of_gt hspaces)] at hstep
    rw [List.take_of_length_le (by rw [List.length_replicate]; exact hle)] at hsound
    have hbody := h.put hsound
    have hshown : [] ++ List.replicate n 32 = shown tp.t_flags k.t_col c := by
      rw [shown, hliteral, if_neg (by decide), if_pos ⟨htab, hxtabs⟩, hn]
      rfl
    rw [hshown] at hbody
    rw [← hstep]
    refine ⟨_, hbody.next hobuf ?_⟩
    rw [advance, hliteral, htab]
    show k.t_col + n = nextStop k.t_col
    omega

omit [DecidableEq Q] in
/-- A character from the front of the buffer is dealt with: nothing of it is put yet. -/
theorem strip_cases (c : UInt8) (t_flags : Flags) (t_col : Int) (hliteral : t_flags.literal = false) :
    c &&& 0x7f = 9 ∧ t_flags.xtabs = true ∨
      c &&& 0x7f = 10 ∧ t_flags.crmod = true ∧ shown t_flags t_col c = [13, 10] ∨
      ¬ (c &&& 0x7f = 9 ∧ t_flags.xtabs = true) ∧ ¬ (c &&& 0x7f = 10 ∧ t_flags.crmod = true) ∧
        shown t_flags t_col c = [c &&& 0x7f] := by
  rw [shown, hliteral, if_neg (by decide)]
  by_cases htab : c &&& 0x7f = 9 ∧ t_flags.xtabs = true
  · exact .inl htab
  · rw [if_neg htab]
    by_cases hnewline : c &&& 0x7f = 10 ∧ t_flags.crmod = true
    · rw [if_pos hnewline]
      exact .inr (.inl ⟨hnewline.1, hnewline.2, rfl⟩)
    · rw [if_neg hnewline]
      exact .inr (.inr ⟨htab, hnewline, rfl⟩)

theorem Body.ttyoutput {c : UInt8} {rest : List UInt8} {k' : Kernel Q}
    (h : Body pool tp before data t_col [] k s) (hflusho : tp.t_flags.flusho = false)
    (hliteral : tp.t_flags.literal = false) (hobuf : k.obuf = c :: rest)
    (hroom : c &&& 0x7f = 9 → tp.t_flags.xtabs = true → s.room tp.t_outq = 0 ∨
      (nextStop k.t_col - k.t_col).toNat ≤ s.room tp.t_outq)
    (hstep : k.ttyoutput tp c = some k') : ∃ s', Good pool tp before data t_col k' s' := by
  rw [Kernel.ttyoutput, hliteral] at hstep
  simp only [Bool.false_eq_true, if_false] at hstep
  rcases strip_cases c tp.t_flags k.t_col hliteral with
    ⟨htab, hxtabs⟩ | ⟨hnewline, hcrmod, hshown⟩ | ⟨htab, hnewline, hshown⟩
  · rw [if_pos ⟨htab, hxtabs⟩] at hstep
    exact h.ttyoutputTab hflusho hliteral hobuf htab hxtabs (hroom htab hxtabs) hstep
  · have htab : ¬ (c &&& 0x7f = 9 ∧ tp.t_flags.xtabs = true) := by
      rw [hnewline]
      exact fun h => absurd h.1 (by decide)
    rw [if_neg htab, if_pos ⟨hnewline, hcrmod⟩, Option.some.injEq] at hstep
    obtain ⟨hfail, hadd⟩ := h.sound.putc 13 tp.t_outq
    by_cases hzero : s.room tp.t_outq = 0
    · rw [hfail hzero] at hstep
      rw [← hstep]
      exact ⟨s, h.wait⟩
    · obtain ⟨hok, hsound⟩ := hadd (Nat.pos_of_ne_zero hzero)
      rw [if_neg (not_not.mpr hok)] at hstep
      rw [← hstep]
      have hbody := h.put hsound
      exact ⟨_, ⟨hbody.sound, hbody.text, hbody.out, hbody.column⟩,
        c, rest, hobuf, hnewline, hcrmod, hliteral⟩
  · rw [if_neg htab, if_neg hnewline, Option.some.injEq] at hstep
    rw [← hstep]
    exact h.ttyoutputEnd hflusho hliteral hobuf (by rw [hshown]; rfl) fun _ => rfl

/-- Characters that need no processing. -/
theorem Body.transfer {ce : Nat} {k' : Kernel Q} (h : Body pool tp before data t_col [] k s)
    (hce : ce ≤ k.obuf.length)
    (hplain : tp.t_flags.literal = true ∨ ∀ c ∈ k.obuf.take ce, partabAnd c 0o77 = 0)
    (hstep : k.transfer tp ce = some k') : ∃ s', Good pool tp before data t_col k' s' := by
  obtain ⟨hleft, hsound⟩ := h.sound.putcs (p := tp.t_outq) (k.obuf.take ce)
  rw [Kernel.transfer, h.sound.b_to_q_eq, Option.map_some, Option.some.injEq] at hstep
  simp only [hleft, List.length_take_of_le hce] at hstep
  generalize hn : ce - (ce - s.room tp.t_outq) = n at hstep
  have htake : (k.obuf.take ce).take (s.room tp.t_outq) = k.obuf.take n := by
    rw [List.take_take]
    congr 1
    omega
  rw [htake] at hsound
  have hn' : n ≤ k.obuf.length := by omega
  obtain ⟨hexpand, hcolumns⟩ := expand_plain (k.obuf.take n)
    (hplain.imp id fun hall c hmem => hall c (List.take_subset_take_left _ (by omega) hmem)) k.t_col
  rw [List.length_take_of_le hn'] at hcolumns
  have hbody : Body pool tp before data t_col []
      { k with
        clists := (k.clists.putcs tp.t_outq (k.obuf.take ce)).2
        t_col := k.t_col + n
        obuf := k.obuf.drop n
        sent := k.sent ++ k.obuf.take n }
      (s.set tp.t_outq ((s.queue tp.t_outq).append (k.obuf.take n))) := by
    refine ⟨hsound, ?_, ?_, ?_⟩
    · rw [List.append_assoc, ← List.append_assoc (k.obuf.take n), List.take_append_drop]
      exact h.text
    · have hout := (h.put hsound).out
      rw [expand_append, ← h.column, hexpand, List.append_nil, ← List.append_assoc]
      exact hout
    · rw [columns_append, ← h.column, hcolumns]
  refine ⟨s.set tp.t_outq ((s.queue tp.t_outq).append (k.obuf.take n)), ?_⟩
  rw [← hstep]
  split
  · exact hbody.wait
  · split
    · exact hbody.good rfl trivial
    · exact hbody.good rfl trivial

theorem Body.whileCc {k' : Kernel Q} (h : Body pool tp before data t_col [] k s)
    (hflusho : tp.t_flags.flusho = false) (hcontrol : k.control = .whileCc) (hwhole : k.Whole tp)
    (hstep : k.whileCc tp = some k') : ∃ s', Good pool tp before data t_col k' s' := by
  rw [Kernel.whileCc] at hstep
  split at hstep
  · cases hstep
    exact ⟨s, h.good rfl trivial⟩
  · rename_i c rest hobuf
    split at hstep
    · rename_i hliteral
      exact h.transfer (Nat.le_refl _) (.inl hliteral) hstep
    · rename_i hliteral
      split at hstep
      · rw [Kernel.Whole, hcontrol, hobuf] at hwhole
        simp only [room_eq h.sound] at hwhole
        have hliteral' := Bool.eq_false_iff.mpr hliteral
        exact h.ttyoutput hflusho hliteral' hobuf (fun htab hxtabs => hwhole htab hxtabs hliteral')
          hstep
      · refine h.transfer ?_ (.inr ?_) hstep
        · rw [ordinary]
          exact (List.takeWhile_prefix _).length_le
        · intro c hmem
          rw [ordinary, ← List.prefix_iff_eq_take.mp (List.takeWhile_prefix _)] at hmem
          have hordinary := List.mem_takeWhile_imp hmem
          exact of_decide_eq_true hordinary

omit [DecidableEq Q] in
theorem Body.whileResid (h : Body pool tp before data t_col [] k s)
    (hflusho : tp.t_flags.flusho = false) : Good pool tp before data t_col (k.whileResid tp) s := by
  rw [Kernel.whileResid, hflusho]
  split
  · rename_i hend
    refine h.good rfl (.inr ⟨rfl, fun _ => ?_⟩)
    rw [hend.1, hend.2]
    rfl
  · rw [if_neg (by decide)]
    split
    · exact h.good rfl trivial
    · split
      · rename_i hempty
        have htext := h.text
        rw [hempty, List.nil_append] at htext
        have hbody : Body pool tp before data t_col []
            { k with uio := k.uio.drop OBUFSIZ, obuf := k.uio.take OBUFSIZ } s := by
          refine ⟨h.sound, ?_, h.out, h.column⟩
          rw [List.take_append_drop]
          exact htext
        exact hbody.good rfl trivial
      · exact h.good rfl trivial

omit [DecidableEq Q] in
theorem Body.loop (h : Body pool tp before data t_col [] k s) (carr_on isopen background : Bool) :
    Good pool tp before data t_col (k.loop tp carr_on isopen background) s := by
  rw [Kernel.loop]
  split
  · split
    · exact h.good rfl (.inl rfl)
    · split
      · rename_i hndelay
        refine h.good rfl (.inr ⟨rfl, fun hblock => ?_⟩)
        rw [hndelay] at hblock
        cases hblock
      · exact h.good rfl trivial
  · split
    · exact h.good rfl trivial
    · exact h.good rfl trivial

omit [DecidableEq Q] in
theorem Body.ovhiwat (h : Body pool tp before data t_col [] k s) :
    Good pool tp before data t_col (k.ovhiwat tp) s := by
  rw [Kernel.ovhiwat]
  split
  · exact h.good rfl trivial
  · exact h.wait

/-- The writer goes on. -/
theorem Good.run {k' : Kernel Q} (h : Good pool tp before data t_col k s)
    (hflusho : tp.t_flags.flusho = false) (hwhole : k.Whole tp) {carr_on isopen background : Bool}
    (hstep : k.run tp carr_on isopen background = some k') :
    ∃ s', Good pool tp before data t_col k' s' := by
  have hbody := h.body
  rw [Kernel.run] at hstep
  cases hcontrol : k.control with
  | loop =>
      rw [hcontrol] at hstep hbody
      cases hstep
      exact ⟨s, hbody.loop carr_on isopen background⟩
  | whileResid =>
      rw [hcontrol] at hstep hbody
      cases hstep
      exact ⟨s, hbody.whileResid hflusho⟩
  | whileCc =>
      rw [hcontrol] at hstep hbody
      exact hbody.whileCc hflusho hcontrol hwhole hstep
  | newline =>
      have hat := h.at_control
      rw [Kernel.At, hcontrol] at hat
      obtain ⟨c, rest, hobuf, hnewline, hcrmod, hliteral⟩ := hat
      rw [Kernel.Whole, hcontrol, room_eq h.body.sound] at hwhole
      rw [hcontrol] at hstep hbody
      dsimp only at hstep
      rw [hobuf] at hstep
      cases hstep
      have hshown : [13] ++ [c &&& 0x7f] = shown tp.t_flags k.t_col c := by
        rw [shown, hliteral, hnewline, if_neg (by decide), if_neg (fun h => absurd h.1 (by decide)),
          if_pos ⟨rfl, hcrmod⟩]
        rfl
      exact hbody.ttyoutputEnd hflusho hliteral hobuf hshown fun hzero =>
        absurd hzero (Nat.ne_of_gt hwhole)
  | ovhiwat =>
      rw [hcontrol] at hstep hbody
      cases hstep
      exact ⟨s, hbody.ovhiwat⟩
  | asleep =>
      rw [hcontrol] at hstep hbody
      cases hstep
      exact ⟨s, hbody.good rfl trivial⟩
  | returned error uio_resid =>
      rw [hcontrol] at hstep
      cases hstep
  | interrupted =>
      rw [hcontrol] at hstep
      cases hstep

/-! ## Interrupts -/

/-- A call for other queues leaves the output queue alone. -/
theorem call_others (char_signed : Bool) (s : Store Q) {outq : Q} {c : Call Q}
    (h : others outq c = true) : (s.call char_signed c).2.queue outq = s.queue outq := by
  cases c with
  | getc p =>
      have hne : outq ≠ p := fun heq => of_decide_eq_true h heq.symm
      rw [Store.call]
      cases (s.queue p).content with
      | nil => rfl
      | cons c rest => exact Store.set_queue_ne hne ..
  | putc c p =>
      have hne : outq ≠ p := fun heq => of_decide_eq_true h heq.symm
      rw [Store.call]
      split
      · rfl
      · exact Store.set_queue_ne hne ..
  | q_to_b q cc => exact Store.set_queue_ne (fun heq => of_decide_eq_true h heq.symm) ..
  | b_to_q cp q => exact Store.set_queue_ne (fun heq => of_decide_eq_true h heq.symm) ..
  | ndqb q flag => rfl
  | ndflush q cc => exact Store.set_queue_ne (fun heq => of_decide_eq_true h heq.symm) ..
  | unputc p =>
      have hne : outq ≠ p := fun heq => of_decide_eq_true h heq.symm
      rw [Store.call]
      cases (s.queue p).content.getLast? with
      | none => rfl
      | some c => exact Store.set_queue_ne hne ..
  | catq source target =>
      simp only [others, Bool.and_eq_true, decide_eq_true_eq] at h
      obtain ⟨⟨hsource, htarget⟩, -⟩ := h
      rw [Store.call]
      split
      · exact (Store.set_queue_ne (Ne.symm htarget) ..).trans (Store.set_queue_ne (Ne.symm hsource) ..)
      · exact (Store.set_queue_ne (Ne.symm htarget) ..).trans (Store.set_queue_ne (Ne.symm hsource) ..)
  | walk p => rfl

omit [DecidableEq Q] in
theorem Good.call (h : Good pool tp before data t_col k s) {clists : Pool Q} {s' : Store Q}
    (hsound : Sound pool clists s') {out : List UInt8}
    (hqueue : (s.queue tp.t_outq).content = out ++ (s'.queue tp.t_outq).content) :
    Good pool tp before data t_col { k with clists := clists, taken := k.taken ++ out } s' := by
  refine ⟨⟨hsound, h.body.text, ?_, h.body.column⟩, h.at_control⟩
  rw [List.append_assoc, ← hqueue]
  exact h.body.out

theorem Good.getc (h : Good pool tp before data t_col k s) (char_signed : Bool) {k' : Kernel Q}
    (hstep : k.event char_signed tp .getc = some k') :
    ∃ s', Good pool tp before data t_col k' s' := by
  obtain ⟨hsound, hresult⟩ := h.body.sound.getc tp.t_outq
  rw [Kernel.event, Option.some.injEq] at hstep
  rw [← hstep]
  cases hcontent : (s.queue tp.t_outq).content with
  | nil =>
      rw [hcontent] at hresult
      rw [hresult, if_pos (by decide)]
      have hqueue : (s.queue tp.t_outq).content =
          [] ++ ((s.set tp.t_outq ((s.queue tp.t_outq).drop 1)).queue tp.t_outq).content := by
        rw [Store.set_queue, Queue.drop_content, hcontent]
        rfl
      have hgood := h.call hsound hqueue
      rw [List.append_nil] at hgood
      exact ⟨_, hgood⟩
  | cons c rest =>
      rw [hcontent] at hresult
      change (k.clists.getc tp.t_outq).1 = (c.toNat : Int) at hresult
      have hchar : UInt8.ofNat (c.toNat : Int).toNat = c := by
        rw [Int.toNat_natCast, UInt8.ofNat_toNat]
      rw [hresult, if_neg (by omega), hchar]
      refine ⟨_, h.call hsound ?_⟩
      rw [Store.set_queue, Queue.drop_content, hcontent]
      rfl

theorem Good.q_to_b (h : Good pool tp before data t_col k s) (char_signed : Bool) {cc : Int}
    {k' : Kernel Q} (hstep : k.event char_signed tp (.q_to_b cc) = some k') :
    ∃ s', Good pool tp before data t_col k' s' := by
  obtain ⟨hsound, hout⟩ := h.body.sound.getcs (p := tp.t_outq) cc.toNat
  rw [Kernel.event, Pool.q_to_b_eq, Option.map_some, Option.some.injEq] at hstep
  rw [← hstep]
  dsimp only
  rw [hout]
  refine ⟨_, h.call hsound ?_⟩
  rw [Store.set_queue, Queue.drop_content, List.take_append_drop]

theorem Good.other (h : Good pool tp before data t_col k s) (char_signed : Bool) {c : Call Q}
    {k' : Kernel Q} (hstep : k.event char_signed tp (.other c) = some k') :
    ∃ s', Good pool tp before data t_col k' s' := by
  rw [Kernel.event] at hstep
  split at hstep
  · rename_i hothers
    obtain ⟨clists, hcall, hsound⟩ := h.body.sound.call char_signed (c := c) (by
      rintro p rfl
      simp [others] at hothers)
    rw [hcall, Option.map_some, Option.some.injEq] at hstep
    rw [← hstep]
    have hqueue : (s.queue tp.t_outq).content =
        [] ++ ((s.call char_signed c).2.queue tp.t_outq).content := by
      rw [call_others char_signed s hothers, List.nil_append]
    have hgood := h.call hsound hqueue
    rw [List.append_nil] at hgood
    exact ⟨_, hgood⟩
  · cases hstep

theorem Good.event (h : Good pool tp before data t_col k s) (hflusho : tp.t_flags.flusho = false)
    {char_signed : Bool} {e : Event Q} {k' : Kernel Q} (hallowed : k.Allowed tp e)
    (hstep : k.event char_signed tp e = some k') : ∃ s', Good pool tp before data t_col k' s' := by
  cases e with
  | run carr_on isopen background => exact h.run hflusho hallowed hstep
  | getc => exact h.getc char_signed hstep
  | q_to_b cc => exact h.q_to_b char_signed hstep
  | other c => exact h.other char_signed hstep
  | signal =>
      rw [Kernel.event] at hstep
      split at hstep
      · rename_i hcontrol
        have hbody := h.body
        rw [hcontrol] at hbody
        cases hstep
        exact ⟨s, hbody.good rfl trivial⟩
      · cases hstep

end Steps

/-! ## Runs -/

/-- The characters in a list. -/
def contents (k : Pool Q) (p : Q) : Option (List UInt8) :=
  k.walk p (k.list p).c_cc.toNat (k.list p).c_cf

/-- After any use of the character lists, output is the expansion of the text, in order and nothing
twice, and a write that returns without EIO has dealt with all of it that it does not report as left. -/
theorem ttwrite_complete (char_signed : Bool) {tp : Tty Q} (hflusho : tp.t_flags.flusho = false)
    {cfree n : Nat} (hcfree : 0 < cfree) {cs : List (Call Q)} {results : List Result}
    {clists : Pool Q}
    (hpool : (Pool.cinit cfree n Pool.zeroed).calls char_signed cs = some (results, clists))
    (data : List UInt8) (t_col : Int) {events : List (Event Q)} {k : Kernel Q}
    (hrun : Steps (Step char_signed tp) (.start clists t_col data) events k) :
    ∃ before content, contents clists tp.t_outq = some before ∧
      contents k.clists tp.t_outq = some content ∧
      k.sent ++ (k.obuf ++ k.uio) = data ∧
      k.taken ++ content = before ++ expand tp.t_flags t_col k.sent ++ k.control.part ∧
      ∀ error uio_resid, k.control = .returned error uio_resid → error = .eio ∨
        uio_resid = (k.obuf ++ k.uio).length ∧ (tp.ndelay = false → k.sent = data) := by
  obtain ⟨-, hsound⟩ := (sound_cinit (n := n) hcfree).calls_ended hpool
  generalize ((Store.initial (cblocks cfree n).length).calls char_signed cs).2 = s at hsound
  have hstart : ∃ s', Good (cblocks cfree n) tp (s.queue tp.t_outq).content data t_col
      (.start clists t_col data) s' :=
    ⟨s, ⟨⟨hsound, rfl, by simp [Kernel.start, expand, Control.part], rfl⟩, trivial⟩⟩
  obtain ⟨s', hgood⟩ := Steps.invariant
    (fun k => ∃ s', Good (cblocks cfree n) tp (s.queue tp.t_outq).content data t_col k s')
    (fun _ _ _ h hstep => h.elim fun _ h => h.event hflusho hstep.1 hstep.2) hrun hstart
  refine ⟨_, _, hsound.walk tp.t_outq, hgood.body.sound.walk tp.t_outq, hgood.body.text,
    hgood.body.out, fun error uio_resid hcontrol => ?_⟩
  have hat := hgood.at_control
  rw [Kernel.At, hcontrol] at hat
  refine hat.imp id fun hleft => ⟨?_, fun hndelay => ?_⟩
  · rw [List.length_append, hleft.1, Nat.add_comm]
  · have hnil : k.obuf ++ k.uio = [] := by
      rw [← List.length_eq_zero_iff, List.length_append, Nat.add_comm, ← hleft.1]
      exact hleft.2 hndelay
    have htext := hgood.body.text
    rw [hnil, List.append_nil] at htext
    exact htext

/-- A terminal with one queue over a pool of two blocks, with CRMOD and XTABS. -/
def small : Tty Unit := ⟨⟨false, false, false, true, true⟩, 100, 2, false, ()⟩

/-- A letter and a newline, with carrier and in the foreground. -/
theorem ttwrite_complete_line :
    ∃ k : Kernel Unit, Steps (Step true small)
        (.start (Pool.cinit 64 2 Pool.zeroed) 0 [97, 10])
        [.run true true false, .run true true false, .run true true false, .run true true false,
          .run true true false, .run true true false, .run true true false, .q_to_b 3] k ∧
      k.taken = [97, 13, 10] ∧ k.control = .returned .ok 0 ∧ k.sent = [97, 10] := by
  have hrun : Steps (Step true small) (.start (Pool.cinit 64 2 Pool.zeroed) 0 [97, 10])
      [.run true true false, .run true true false, .run true true false, .run true true false,
        .run true true false, .run true true false, .run true true false, .q_to_b 3] _ :=
    .cons ⟨trivial, rfl⟩ (.cons ⟨trivial, rfl⟩
      (.cons ⟨fun h => absurd h (by decide), rfl⟩ (.cons ⟨fun h => absurd h (by decide), rfl⟩
        (.cons ⟨Nat.le_of_ble_eq_true rfl, rfl⟩ (.cons ⟨trivial, rfl⟩ (.cons ⟨trivial, rfl⟩
          (.cons ⟨trivial, rfl⟩ (.refl _))))))))
  have hpool : (Pool.cinit 64 2 Pool.zeroed).calls true [] =
      some ([], (Pool.cinit 64 2 Pool.zeroed : Pool Unit)) := rfl
  obtain ⟨before, content, -, -, -, -, hreturned⟩ :=
    ttwrite_complete true rfl (by decide) hpool [97, 10] 0 hrun
  exact ⟨_, hrun, rfl, rfl, ((hreturned .ok 0 rfl).resolve_left (by decide)).2 rfl⟩

/-- A run, with what left the output queue and where the writer is at its end. -/
def outcome (t_col : Int) (data : List UInt8) (events : List (Event Unit)) :
    Option (List UInt8 × Control) :=
  (events.foldlM (Kernel.event true small) (.start (Pool.cinit 64 2 Pool.zeroed) t_col data)).map
    fun k => (k.taken, k.control)

/-- The writer goes on, a number of times. -/
def runs (n : Nat) : List (Event Unit) := List.replicate n (.run true true false)

/-- The parity bit of a character is stripped. When 55 letters leave room for one character, a newline is
sent with two carriage returns; when 54 leave room for two, a tab at column 58 is sent as two spaces. -/
theorem ttwrite_strips_and_cuts :
    outcome 0 [193] (runs 5 ++ [.q_to_b 100]) = some ([65], .returned .ok 0) ∧
      outcome 0 (List.replicate 55 120 ++ [10])
          (runs 5 ++ [.q_to_b 100] ++ runs 7 ++ [.q_to_b 100]) =
        some (List.replicate 55 120 ++ [13, 13, 10], .returned .ok 0) ∧
      outcome 4 (List.replicate 54 120 ++ [9]) (runs 4 ++ [.q_to_b 100] ++ runs 2) =
        some (List.replicate 54 120 ++ [32, 32], .returned .ok 0) := by
  decide +kernel

end DiscoBsd.Output
