import Mathlib.Algebra.GroupWithZero.Nat
import Mathlib.Data.Fin.VecNotation
import Mathlib.Data.List.Basic

/-!
# Resource maps

A resource map describes the free part of an address space by an array of segments,
sorted by address and closed by a slot of size 0. The array is the list of its slots:
the live segments, the closing slot, and whatever older contents lie behind it.
`malloc` is first fit, `mfree` sorts a range back in and joins it with its neighbours,
and `malloc3` carves the three segments of a process in one pass. Sizes and addresses
are 32-bit `size_t` values, so sums are taken modulo `2 ^ 32`.

Each operation returns `none` where the source panics or where a scan runs past the
last slot of the array.
-/

namespace DiscoBsd.Rmap

/-- One slot of a resource map: `m_size` units starting at `m_addr`. -/
structure Mapent where
  mSize : Nat
  mAddr : Nat
  deriving DecidableEq, Repr

/-- A resource map: its slots and the index of the last slot that may be used. -/
structure Map where
  mMap : List Mapent
  mLimit : Nat
  deriving DecidableEq, Repr

/-- A sum of two `size_t` values. -/
def sizeAdd (a b : Nat) : Nat := (a + b) % 2 ^ 32

/-- `for (ep = bp;; ++ep) { *ep = *++bp; if (!bp->m_size) break; }`: copy the slots behind the
first one down by one place, up to and including the closing slot, which then stands twice. -/
def moveDown : List Mapent → Option (List Mapent)
  | _ :: bp :: rest =>
      if bp.mSize = 0 then some (bp :: bp :: rest)
      else (bp :: ·) <$> moveDown (bp :: rest)
  | _ => none

/-- The first-fit scan of `malloc`, from slot `bp` on: the address handed out, or 0, and the
slots afterwards. -/
def mallocScan (size : Nat) : List Mapent → Option (Nat × List Mapent)
  | [] => none
  | bp :: rest =>
      if bp.mSize = 0 then some (0, bp :: rest)
      else if size ≤ bp.mSize then
        if bp.mSize - size ≠ 0 then
          some (bp.mAddr,
            { mSize := bp.mSize - size, mAddr := sizeAdd bp.mAddr size } :: rest)
        else do
          let slots ← moveDown ({ bp with mSize := 0 } :: rest)
          pure (bp.mAddr, slots)
      else do
        let (addr, slots) ← mallocScan size rest
        pure (addr, bp :: slots)

/-- Allocate `size` units; address 0 reports failure. A request for 0 units panics. -/
def malloc (mp : Map) (size : Nat) : Option (Nat × Map) :=
  if size = 0 then none
  else do
    let (addr, slots) ← mallocScan size mp.mMap
    pure (addr, { mp with mMap := slots })

/-- `for (ep = bp - 1; ep >= start; *bp-- = *ep--)` and the store into `start`: put a slot in
front and move the others up by one place, up to and including the closing slot, over the
slot behind it. -/
def moveUp (ent : Mapent) : List Mapent → Option (List Mapent)
  | [] => none
  | bp :: rest =>
      if bp.mSize = 0 then
        match rest with
        | [] => none
        | _ :: behind => some (ent :: bp :: behind)
      else (ent :: ·) <$> moveUp bp rest

/-- The slots `mfree` skips: live segments that start at or before the returned address. -/
def startsBefore (addr : Nat) (bp : Mapent) : Bool :=
  bp.mSize ≠ 0 && bp.mAddr ≤ addr

/-- The outcome of `mfree`: the range is back in the map, or the map had no slot for it and
the range is lost. -/
inductive Freed where
  | done
  | overflow
  deriving DecidableEq, Repr

/-- Return the range to the slots `bp` points at when no segment on its left abuts it. -/
def mfreeRight (limit size addr skipped : Nat) :
    List Mapent → Option (Freed × List Mapent)
  | [] => none
  | bp :: rest =>
      if bp.mSize ≠ 0 ∧ bp.mAddr ≤ sizeAdd addr size then
        some (.done, { mSize := sizeAdd bp.mSize size, mAddr := addr } :: rest)
      else
        -- the closing slot would move to the index after its own
        let closing := skipped + ((bp :: rest).takeWhile (·.mSize ≠ 0)).length
        if limit < closing + 1 then some (.overflow, bp :: rest)
        else do
          let slots ← moveUp { mSize := size, mAddr := addr } (bp :: rest)
          pure (.done, slots)

/-- Return `size` units at `addr` to the map. -/
def mfree (mp : Map) (size addr : Nat) : Option (Freed × Map) :=
  if size = 0 then some (.done, mp)
  else if addr = 0 then none
  else
    let before := mp.mMap.takeWhile (startsBefore addr)
    let after := mp.mMap.dropWhile (startsBefore addr)
    match before.getLast?, after with
    | some ep, bp :: rest =>
        if addr ≤ sizeAdd ep.mAddr ep.mSize then
          let joined := sizeAdd ep.mSize size
          if bp.mSize ≠ 0 ∧ bp.mAddr ≤ sizeAdd addr size then do
            let slots ← moveDown (bp :: rest)
            pure (.done, { mp with
              mMap := before.dropLast ++
                { ep with mSize := sizeAdd joined bp.mSize } :: slots })
          else
            pure (.done, { mp with
              mMap := before.dropLast ++ { ep with mSize := joined } :: bp :: rest })
        else do
          let (freed, slots) ← mfreeRight mp.mLimit size addr before.length after
          pure (freed, { mp with mMap := before ++ slots })
    | _, _ => do
        let (freed, slots) ← mfreeRight mp.mLimit size addr before.length after
        pure (freed, { mp with mMap := before ++ slots })

/-! ## Three segments at once -/

scoped instance threeNeZero : NeZero 3 := ⟨by decide⟩

/-- The choices `malloc3` has made: the slot each piece comes from, the first slot that was
used up, and how many pieces are placed. -/
structure Pieces where
  madd : Fin 3 → Option Nat
  remap : Option Nat
  found : Nat

/-- No piece is placed yet. -/
def Pieces.empty : Pieces := { madd := fun _ => none, remap := none, found := 0 }

/-- Place piece `next` in slot number `bp` if it still needs a place and fits. -/
def takePiece (sizes : Fin 3 → Nat) (bp : Nat) (next : Fin 3) :
    Pieces × Mapent → Pieces × Mapent
  | (pieces, ent) =>
      if pieces.madd next = none ∧ sizes next ≤ ent.mSize then
        let left := ent.mSize - sizes next
        ({ madd := Function.update pieces.madd next (some bp)
           remap := if left = 0 ∧ pieces.remap = none then some bp else pieces.remap
           found := pieces.found + 1 },
         { ent with mSize := left })
      else (pieces, ent)

/-- The inner loop: offer one slot to the three pieces in order. Once three pieces are placed
every further offer is refused, so leaving the loop early and finishing it agree. -/
def takePieces (sizes : Fin 3 → Nat) (bp : Nat) (start : Pieces × Mapent) : Pieces × Mapent :=
  takePiece sizes bp 2 (takePiece sizes bp 1 (takePiece sizes bp 0 start))

/-- The search of `malloc3` from slot number `bp` on. -/
def malloc3Scan (sizes : Fin 3 → Nat) :
    Nat → List Mapent → Pieces → Option (Pieces × List Mapent)
  | _, [], _ => none
  | bp, ent :: rest, pieces =>
      if ent.mSize = 0 then some (pieces, ent :: rest)
      else
        let (pieces, ent) := takePieces sizes bp (pieces, ent)
        if pieces.found = 3 then some (pieces, ent :: rest)
        else do
          let (pieces, rest) ← malloc3Scan sizes (bp + 1) rest pieces
          pure (pieces, ent :: rest)

/-- `if (madd[next]) madd[next]->m_size += sizes[next]`. -/
def restorePiece (sizes : Fin 3 → Nat) (pieces : Pieces) (next : Fin 3)
    (slots : List Mapent) : List Mapent :=
  match pieces.madd next with
  | none => slots
  | some bp => slots.modify bp fun ent => { ent with mSize := sizeAdd ent.mSize (sizes next) }

/-- `a[next] = bp->m_addr; bp->m_addr += sizes[next]` for the slot piece `next` came from. -/
def resolvePiece (sizes : Fin 3 → Nat) (pieces : Pieces) (next : Fin 3)
    (slots : List Mapent) : Option (Nat × List Mapent) := do
  let bp ← pieces.madd next
  let ent ← slots[bp]?
  pure (ent.mAddr,
    slots.modify bp fun ent => { ent with mAddr := sizeAdd ent.mAddr (sizes next) })

/-- The slots the last loop of `malloc3` copies down: those that still have units, and the
closing slot, recognised by its address 0. -/
def keptSlots : List Mapent → Option (List Mapent)
  | [] => none
  | bp :: rest =>
      if bp.mSize ≠ 0 ∨ bp.mAddr = 0 then
        if bp.mAddr = 0 then some [bp]
        else (bp :: ·) <$> keptSlots rest
      else keptSlots rest

/-- Remove the slots of size 0 from slot number `remap` on. -/
def removeEmpty (remap : Option Nat) (slots : List Mapent) : Option (List Mapent) :=
  match remap with
  | none => some slots
  | some first => do
      let kept ← keptSlots (slots.drop (first + 1))
      pure (slots.take first ++ kept ++ slots.drop (first + kept.length))

/-- Allocate the data, stack and `u.` segments of a process. The result is the returned value
(the address of the `u.` segment, or 0), the addresses stored in `a`, and the map. -/
def malloc3 (mp : Map) (dSize sSize uSize : Nat) : Option (Nat × List Nat × Map) := do
  let sizes := ![dSize, sSize, uSize]
  let (pieces, slots) ← malloc3Scan sizes 0 mp.mMap .empty
  if pieces.found = 3 then
    let (a0, slots) ← resolvePiece sizes pieces 0 slots
    let (a1, slots) ← resolvePiece sizes pieces 1 slots
    let (a2, slots) ← resolvePiece sizes pieces 2 slots
    let slots ← removeEmpty pieces.remap slots
    pure (a2, [a0, a1, a2], { mp with mMap := slots })
  else
    let slots := restorePiece sizes pieces 2
      (restorePiece sizes pieces 1 (restorePiece sizes pieces 0 slots))
    pure (0, [], { mp with mMap := slots })

end DiscoBsd.Rmap
