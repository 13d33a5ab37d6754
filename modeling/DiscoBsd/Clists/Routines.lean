import DiscoBsd.Lib.Memory

/-!
# Character lists

The character blocks of `sys/kern/tty_subr.c`. Positions are addresses: the low bits of one say where
in its block it is, `c_info` is the byte at an address and `c_next` the link in the block at an
address. The clists are a family over any index type, and NULL is zero. `cwaiting` says that a process
waits for a block. A routine with a loop returns `none` if the loop does not end.
-/

namespace DiscoBsd.Clists

open DiscoBsd.Lib

/-- The size of a block. -/
abbrev CBLOCK : Nat := 32

/-- The size of the link at the start of a block. -/
abbrev LINK : Nat := 4

/-- The characters in a block. -/
abbrev CBSIZE : Nat := CBLOCK - LINK

/-- `a & ~CROUND`: the block of an address. -/
def block (a : Nat) : Nat := a / CBLOCK * CBLOCK

structure Clist where
  c_cc : Int
  c_cf : Nat
  c_cl : Nat
deriving DecidableEq

structure Pool (Q : Type) where
  c_next : Nat → Nat
  c_info : Nat → UInt8
  cfreelist : Nat
  cfreecount : Int
  cwaiting : Bool
  list : Q → Clist

/-- A character as the promotion of `char` to `int` has it. -/
def charValue (char_signed : Bool) (c : UInt8) : BitVec 32 :=
  if char_signed then c.toBitVec.signExtend 32 else c.toBitVec.zeroExtend 32

variable {Q : Type} [DecidableEq Q]

namespace Pool

def set (k : Pool Q) (p : Q) (l : Clist) : Pool Q := { k with list := Function.update k.list p l }

/-- Put a block on the free list. -/
def free (k : Pool Q) (bp : Nat) : Pool Q :=
  { k with
    c_next := Function.update k.c_next bp k.cfreelist
    cfreelist := bp
    cfreecount := k.cfreecount + CBSIZE }

/-- Put a block on the free list and wake those who wait for one. -/
def release (k : Pool Q) (bp : Nat) : Pool Q := { k.free bp with cwaiting := false }

/-- Take the first block of the free list. -/
def take (k : Pool Q) : Pool Q :=
  { k with
    c_next := Function.update k.c_next k.cfreelist 0
    cfreelist := k.c_next k.cfreelist
    cfreecount := k.cfreecount - CBSIZE }

/-- `bp->c_next = cfreelist`. -/
def link (k : Pool Q) (bp : Nat) : Pool Q :=
  { k with c_next := Function.update k.c_next bp k.cfreelist }

def getc (k : Pool Q) (p : Q) : Int × Pool Q :=
  let l := k.list p
  if l.c_cc ≤ 0 then (-1, k.set p ⟨0, 0, 0⟩)
  else
    let c : Int := (k.c_info l.c_cf).toNat
    let c_cf := l.c_cf + 1
    let c_cc := l.c_cc - 1
    if c_cc ≤ 0 then (c, (k.set p ⟨c_cc, 0, 0⟩).release (block (c_cf - 1)))
    else if c_cf % CBLOCK = 0 then
      let bp := c_cf - CBLOCK
      (c, (k.set p ⟨c_cc, k.c_next bp + LINK, l.c_cl⟩).release bp)
    else (c, k.set p ⟨c_cc, c_cf, l.c_cl⟩)

/-- `while (cc)` of `q_to_b`. -/
def qToBLoop (q : Q) : Nat → Nat → Pool Q → Option (List UInt8 × Pool Q)
  | _, 0, k => some ([], k)
  | 0, _ + 1, _ => none
  | fuel + 1, cc + 1, k =>
      let l := k.list q
      let nc := min (min (CBLOCK - l.c_cf % CBLOCK) (cc + 1)) l.c_cc.toNat
      let out := bytes k.c_info l.c_cf nc
      let c_cf := l.c_cf + nc
      let c_cc := l.c_cc - nc
      if c_cc ≤ 0 then some (out, (k.set q ⟨c_cc, 0, 0⟩).release (block (c_cf - 1)))
      else
        let k :=
          if c_cf % CBLOCK = 0 then
            let bp := c_cf - CBLOCK
            (k.set q ⟨c_cc, k.c_next bp + LINK, l.c_cl⟩).release bp
          else k.set q ⟨c_cc, c_cf, l.c_cl⟩
        (qToBLoop q fuel (cc + 1 - nc) k).map fun (rest, k) => (out ++ rest, k)

/-- Copy clist to buffer. -/
def q_to_b (k : Pool Q) (q : Q) (cc : Int) : Option (List UInt8 × Pool Q) :=
  if cc ≤ 0 then some ([], k)
  else if (k.list q).c_cc ≤ 0 then some ([], k.set q ⟨0, 0, 0⟩)
  else qToBLoop q cc.toNat cc.toNat k

/-- The contiguous characters at the front. -/
def contiguous (l : Clist) : Nat :=
  let cc := block (l.c_cf + CBSIZE) - l.c_cf
  if l.c_cc < cc then l.c_cc.toNat else cc

def ndqb (char_signed : Bool) (k : Pool Q) (q : Q) (flag : BitVec 32) : Int :=
  let l := k.list q
  if l.c_cc ≤ 0 then -l.c_cc
  else if flag = 0 then contiguous l
  else
    ((bytes k.c_info l.c_cf (contiguous l)).takeWhile fun c =>
      decide (charValue char_signed c &&& flag = 0)).length

/-- `while (cc>0 && q->c_cc)` of `ndflush`. -/
def ndflushLoop (q : Q) : Nat → Nat → Pool Q → Option (Pool Q)
  | _, 0, k => some k
  | 0, _ + 1, k => if (k.list q).c_cc = 0 then some k else none
  | fuel + 1, cc + 1, k =>
      let l := k.list q
      if l.c_cc = 0 then some k
      else
        let bp := block l.c_cf
        let last := if bp = block (l.c_cl - 1) then l.c_cl else bp + CBLOCK
        let rem := last - l.c_cf
        if rem ≤ cc + 1 then
          ndflushLoop q fuel (cc + 1 - rem)
            ((k.set q ⟨l.c_cc - rem, k.c_next bp + LINK, l.c_cl⟩).release bp)
        else
          let k := k.set q ⟨l.c_cc - (cc + 1 : Nat), l.c_cf + (cc + 1), l.c_cl⟩
          some (if (k.list q).c_cc ≤ 0 then k.release bp else k)

/-- Flush `cc` bytes from `q`. -/
def ndflush (k : Pool Q) (q : Q) (cc : Int) : Option (Pool Q) :=
  if (k.list q).c_cc ≤ 0 then some k
  else
    (ndflushLoop q cc.toNat cc.toNat k).map fun k =>
      if (k.list q).c_cc ≤ 0 then k.set q ⟨0, 0, 0⟩ else k

/-- `*cp++ = c`. -/
def putAt (k : Pool Q) (p : Q) (c_cf cp : Nat) (c : UInt8) : Pool Q :=
  { k.set p ⟨(k.list p).c_cc + 1, c_cf, cp + 1⟩ with c_info := Function.update k.c_info cp c }

def putc (k : Pool Q) (c : Int) (p : Q) : Int × Pool Q :=
  let l := k.list p
  let c := UInt8.ofInt c
  if l.c_cl = 0 ∨ l.c_cc < 0 then
    if k.cfreelist = 0 then (-1, k)
    else (0, k.take.putAt p (k.cfreelist + LINK) (k.cfreelist + LINK) c)
  else if l.c_cl % CBLOCK = 0 then
    let k := k.link (l.c_cl - CBLOCK)
    if k.cfreelist = 0 then (-1, k)
    else (0, k.take.putAt p l.c_cf (k.cfreelist + LINK) c)
  else (0, k.putAt p l.c_cf l.c_cl c)

/-- Where the next character goes: behind a full block another one is linked. -/
def place (k : Pool Q) (cq : Nat) : Option Nat × Pool Q :=
  if cq % CBLOCK = 0 then
    let k := k.link (cq - CBLOCK)
    if k.cfreelist = 0 then (none, k) else (some (k.cfreelist + LINK), k.take)
  else (some cq, k)

/-- `while (cc)` of `b_to_q`: what is left to copy, and where to. -/
def bToQLoop : Nat → List UInt8 → Nat → Pool Q → Option (List UInt8 × Nat × Pool Q)
  | _, [], cq, k => some ([], cq, k)
  | 0, _ :: _, _, _ => none
  | fuel + 1, c :: cs, cq, k =>
      match k.place cq with
      | (none, k) => some (c :: cs, cq, k)
      | (some cq, k) =>
          let nc := min (c :: cs).length (CBLOCK - cq % CBLOCK)
          bToQLoop fuel ((c :: cs).drop nc) (cq + nc)
            { k with c_info := store k.c_info cq ((c :: cs).take nc) }

/-- Copy buffer to clist; the number of bytes not transferred is the result. -/
def b_to_q (k : Pool Q) (cp : List UInt8) (q : Q) : Option (Nat × Pool Q) :=
  if cp = [] then some (0, k)
  else
    let l := k.list q
    let out := fun (result : List UInt8 × Nat × Pool Q) =>
      let l := result.2.2.list q
      (result.1.length,
        result.2.2.set q ⟨l.c_cc + (cp.length - result.1.length : Nat), l.c_cf, result.2.1⟩)
    if l.c_cl = 0 ∨ l.c_cc < 0 then
      if k.cfreelist = 0 then some (out (cp, l.c_cl, k))
      else
        let cq := k.cfreelist + LINK
        (bToQLoop cp.length cp cq (k.take.set q ⟨l.c_cc, cq, l.c_cl⟩)).map out
    else (bToQLoop cp.length cp l.c_cl k).map out

/-- The next character in the list, if there is one. -/
def nextc (k : Pool Q) (p : Q) (cp : Nat) : Nat :=
  let l := k.list p
  if l.c_cc ≠ 0 ∧ cp + 1 ≠ l.c_cl then
    if (cp + 1) % CBLOCK = 0 then k.c_next (cp + 1 - CBLOCK) + LINK else cp + 1
  else 0

/-- `for (cp = p->c_cf; cp; cp = nextc(p, cp))`: the characters that such a walk sees. -/
def walk (k : Pool Q) (p : Q) : Nat → Nat → Option (List UInt8)
  | _, 0 => some []
  | 0, _ + 1 => none
  | fuel + 1, cp + 1 => (walk k p fuel (k.nextc p (cp + 1))).map (k.c_info (cp + 1) :: ·)

/-- `while (bp->c_next != c_cl) bp = bp->c_next`. -/
def findPrevious (c_next : Nat → Nat) (c_cl : Nat) : Nat → Nat → Option Nat
  | 0, _ => none
  | fuel + 1, bp =>
      if c_next bp = c_cl then some bp else findPrevious c_next c_cl fuel (c_next bp)

/-- Remove the last character in the list and return it. -/
def unputc (char_signed : Bool) (k : Pool Q) (p : Q) : Option (BitVec 32 × Pool Q) :=
  let l := k.list p
  if l.c_cc ≤ 0 then some (-1, k)
  else
    let c_cl := l.c_cl - 1
    let c := charValue char_signed (k.c_info c_cl)
    let c_cc := l.c_cc - 1
    if c_cc ≤ 0 then some (c, (k.set p ⟨c_cc, 0, 0⟩).free (block c_cl))
    else if c_cl % CBLOCK = LINK then
      let c_cl := block c_cl
      (findPrevious k.c_next c_cl l.c_cc.toNat (block l.c_cf)).map fun obp =>
        let bp := k.c_next obp
        let k := (k.set p ⟨c_cc, l.c_cf, obp + CBLOCK⟩).free bp
        (c, { k with c_next := Function.update k.c_next obp 0 })
    else some (c, k.set p ⟨c_cc, l.c_cf, c_cl⟩)

/-- `while (from->c_cc > 0)` of `catq`. -/
def catqLoop (source target : Q) : Nat → Pool Q → Option (Pool Q)
  | 0, k => if 0 < (k.list source).c_cc then none else some k
  | fuel + 1, k =>
      if 0 < (k.list source).c_cc then
        (k.q_to_b source (CBSIZE * 4)).bind fun (bbuf, k) =>
          (k.b_to_q bbuf target).bind fun (_, k) => catqLoop source target fuel k
      else some k

/-- Put the characters of one list at the end of another. -/
def catq (k : Pool Q) (source target : Q) : Option (Pool Q) :=
  if (k.list target).c_cc = 0 then some ((k.set target (k.list source)).set source ⟨0, 0, 0⟩)
  else catqLoop source target (k.list source).c_cc.toNat k

/-! ## The start -/

/-- The loop of `cinit`, for a table of `n` blocks at `cfree`. -/
def cinitLoop (cfree n : Nat) : Nat → Nat → Pool Q → Pool Q
  | 0, _, k => k
  | fuel + 1, cp, k =>
      if cp ≤ cfree + CBLOCK * (n - 1) then cinitLoop cfree n fuel (cp + CBLOCK) (k.free cp) else k

/-- Free all character blocks. -/
def cinit (cfree n : Nat) (k : Pool Q) : Pool Q :=
  cinitLoop cfree n n (block (cfree + (CBLOCK - 1))) k

/-- The memory before `cinit`. -/
def zeroed : Pool Q where
  c_next _ := 0
  c_info _ := 0
  cfreelist := 0
  cfreecount := 0
  cwaiting := false
  list _ := ⟨0, 0, 0⟩

end Pool

/-! ## Calls -/

inductive Call (Q : Type) where
  | getc (p : Q)
  | putc (c : Int) (p : Q)
  | q_to_b (q : Q) (cc : Int)
  | b_to_q (cp : List UInt8) (q : Q)
  | ndqb (q : Q) (flag : BitVec 32)
  | ndflush (q : Q) (cc : Int)
  | unputc (p : Q)
  | catq (source target : Q)
  | walk (p : Q)

inductive Result where
  | none
  | int (value : Int)
  | word (value : BitVec 32)
  | buffer (value : List UInt8)
deriving DecidableEq

def Pool.call (char_signed : Bool) (k : Pool Q) : Call Q → Option (Result × Pool Q)
  | .getc p => some (.int (k.getc p).1, (k.getc p).2)
  | .putc c p => some (.int (k.putc c p).1, (k.putc c p).2)
  | .q_to_b q cc => (k.q_to_b q cc).map fun (out, k) => (.buffer out, k)
  | .b_to_q cp q => (k.b_to_q cp q).map fun (left, k) => (.int left, k)
  | .ndqb q flag => some (.int (k.ndqb char_signed q flag), k)
  | .ndflush q cc => (k.ndflush q cc).map fun k => (.none, k)
  | .unputc p => (k.unputc char_signed p).map fun (c, k) => (.word c, k)
  | .catq source target => (k.catq source target).map fun k => (.none, k)
  | .walk p => (k.walk p (k.list p).c_cc.toNat (k.list p).c_cf).map fun out => (.buffer out, k)

end DiscoBsd.Clists
