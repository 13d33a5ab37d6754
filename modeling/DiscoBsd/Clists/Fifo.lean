import DiscoBsd.Clists.Chars

/-!
# Byte queues over a pool of blocks

What the character lists are for: each is a queue of bytes, and together they live in a pool. The
first block of a queue may have lost characters already, so that `skip` of them count for its room but
not for its content.
-/

namespace DiscoBsd.Clists

/-- The bytes of a list, after `skip` places that were used before. -/
structure Queue where
  content : List UInt8
  skip : Nat
deriving DecidableEq

namespace Queue

def empty : Queue := ⟨[], 0⟩

/-- The blocks that the bytes need. -/
def blocks (q : Queue) : Nat := (q.skip + q.content.length + (CBSIZE - 1)) / CBSIZE

/-- The places behind the last byte. -/
def slack (q : Queue) : Nat := CBSIZE * q.blocks - (q.skip + q.content.length)

def drop (n : Nat) (q : Queue) : Queue :=
  if q.content.length ≤ n then empty else ⟨q.content.drop n, (q.skip + n) % CBSIZE⟩

def append (cs : List UInt8) (q : Queue) : Queue := ⟨q.content ++ cs, q.skip⟩

def dropLast (q : Queue) : Queue :=
  if q.content.length ≤ 1 then empty else ⟨q.content.dropLast, q.skip⟩

end Queue

/-- The queues and the number of free blocks. -/
structure Store (Q : Type) where
  queue : Q → Queue
  free : Nat

variable {Q : Type} [DecidableEq Q]

namespace Store

/-- Another content for a queue; blocks are taken from the pool or given back. -/
def set (s : Store Q) (p : Q) (q : Queue) : Store Q where
  queue := Function.update s.queue p q
  free := s.free + (s.queue p).blocks - q.blocks

/-- How many bytes a queue can take. -/
def room (s : Store Q) (p : Q) : Nat := (s.queue p).slack + CBSIZE * s.free

/-- The calls, on queues. -/
def call (char_signed : Bool) (s : Store Q) : Call Q → Result × Store Q
  | .getc p =>
      match (s.queue p).content with
      | [] => (.int (-1), s)
      | c :: _ => (.int c.toNat, s.set p ((s.queue p).drop 1))
  | .putc c p =>
      if s.room p = 0 then (.int (-1), s)
      else (.int 0, s.set p ((s.queue p).append [UInt8.ofInt c]))
  | .q_to_b q cc =>
      (.buffer ((s.queue q).content.take cc.toNat), s.set q ((s.queue q).drop cc.toNat))
  | .b_to_q cp q =>
      (.int (cp.length - s.room q : Nat), s.set q ((s.queue q).append (cp.take (s.room q))))
  | .ndqb q flag =>
      let near := (s.queue q).content.take (CBSIZE - (s.queue q).skip)
      (.int (near.takeWhile fun c => decide (charValue char_signed c &&& flag = 0)).length, s)
  | .ndflush q cc => (.none, s.set q ((s.queue q).drop cc.toNat))
  | .unputc p =>
      match (s.queue p).content.getLast? with
      | none => (.word (-1), s)
      | some c => (.word (charValue char_signed c), s.set p (s.queue p).dropLast)
  | .catq source target =>
      let q := s.queue source
      let s := s.set source .empty
      if (s.queue target).content = [] then (.none, s.set target q)
      else (.none, s.set target ((s.queue target).append q.content))
  | .walk p => (.buffer (s.queue p).content, s)

end Store

end DiscoBsd.Clists
