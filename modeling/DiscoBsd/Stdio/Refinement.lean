import DiscoBsd.Stdio.Stream

/-!
# Streams against unbuffered files

A stream runs beside a descriptor on which every operation is done directly. `Agrees` says how the two
are related while the stream is idle, reading, writing, or left with a counter from before a seek;
`stdio_refines` is about whole runs.
-/

namespace DiscoBsd.Stdio

open Lib

/-- What an update stream was last used for, since the last seek. -/
inductive Use where
  | reading
  | writing
  deriving DecidableEq

variable {p p' : Stream} {d d' : Fd} {last : Option Use} {mem : Bool} {c : UInt8}

/-! ## The relation -/

/-- What stays the same while a stream is used. -/
structure Static (p : Stream) (d : Fd) : Prop where
  readable : p.fd.readable = d.readable
  writable : p.fd.writable = d.writable
  append : p.fd.append = d.append
  iorw : p.iorw = (d.readable && d.writable)
  ioread : p.iorw = false → p.ioread = d.readable
  iowrt : p.iorw = false → p.iowrt = d.writable
  some_use : d.readable = true ∨ d.writable = true
  appendOnly : d.append = true → d.readable = false
  bufsiz : p.base = true → p.bufsiz = BUFSIZ

/-- Positions and sizes are below 2^31. -/
structure InRange (p : Stream) (d : Fd) : Prop where
  pos : IsPos d.f_offset
  size : d.file.size < 2147483648
  fpos : IsPos p.fd.f_offset

/-- The stream's bytes and its descriptor against the position. -/
inductive Agrees (p : Stream) (d : Fd) (last : Option Use) : Prop where
  /-- Nothing is buffered. -/
  | idle (cnt : p.cnt = 0) (ptr : p.ptr = 0) (fd : p.fd = d)
      (flags : p.iorw = true → p.ioread = false ∧ p.iowrt = false)
      (base : p.iowrt = true → p.base = false)
  /-- The next `n` bytes of the file are in the buffer. -/
  | reading (n : Nat) (cnt : p.cnt = n) (le : n ≤ BUFSIZ) (ioread : p.ioread = true)
      (iowrt : p.iowrt = false) (base : p.base = true) (file : p.fd.file = d.file)
      (offset : p.fd.f_offset = d.f_offset + n)
      (ahead : ∀ i < n, p.buffer (p.ptr + i) = d.file.data (d.f_offset.toNat + i))
      (inFile : 0 < n → d.f_offset + n ≤ d.file.size) (use : p.iorw = true → last = some .reading)
  /-- The last bytes written are in the buffer. -/
  | writing (cnt : p.cnt = BUFSIZ - p.ptr) (le : p.ptr ≤ BUFSIZ) (ioread : p.ioread = false)
      (iowrt : p.iowrt = true) (base : p.base = true)
      (fd : d = if p.ptr = 0 then p.fd else (p.fd.write (bytes p.buffer 0 p.ptr)).2)
      (use : p.iorw = true → last = some .writing)
  /-- A seek has left the counter of an empty buffer. -/
  | stale (cnt : p.cnt = BUFSIZ) (ptr : p.ptr = 0) (fd : p.fd = d) (iorw : p.iorw = true)
      (ioread : p.ioread = false) (iowrt : p.iowrt = false)

/-- The stream and the descriptor are in the same place. -/
structure Synced (p : Stream) (d : Fd) (last : Option Use) : Prop where
  static : Static p d
  range : InRange p d
  agrees : Agrees p d last

/-- The counter of an empty buffer is left from before a seek. -/
def Stale (p : Stream) : Prop :=
  p.iorw = true ∧ p.ioread = false ∧ p.iowrt = false ∧ p.cnt > 0

/-! ## Reading -/

theorem read_spec {n : Nat} (hr : d.readable = true) (hpos : 0 ≤ d.f_offset) :
    d.read n = (some (bytes d.file.data d.f_offset.toNat (min n (d.file.size - d.f_offset.toNat))),
      { d with f_offset := d.f_offset + (min n (d.file.size - d.f_offset.toNat) : Nat) }) := by
  rw [Fd.read, if_pos ⟨hr, hpos⟩]

theorem fgetc_some (hr : d.readable = true) (hpos : 0 ≤ d.f_offset)
    (hin : d.f_offset < d.file.size) :
    d.fgetc = (((d.file.data d.f_offset.toNat).toNat : Int), { d with f_offset := d.f_offset + 1 }) := by
  have hcount : min 1 (d.file.size - d.f_offset.toNat) = 1 := by omega
  rw [Fd.fgetc, read_spec hr hpos, hcount]
  rfl

theorem fgetc_none (hr : d.readable = true) (hpos : 0 ≤ d.f_offset)
    (hout : (d.file.size : Int) ≤ d.f_offset) : d.fgetc = (EOF, d) := by
  have hcount : min 1 (d.file.size - d.f_offset.toNat) = 0 := by omega
  rw [Fd.fgetc, read_spec hr hpos, hcount]
  simp [bytes, EOF]

/-- A descriptor is used in the same way. -/
structure SameAccess (d d' : Fd) : Prop where
  readable : d'.readable = d.readable
  writable : d'.writable = d.writable
  append : d'.append = d.append

theorem read_access (n : Nat) (d : Fd) : SameAccess d (d.read n).2 := by
  rw [Fd.read]
  split <;> exact ⟨rfl, rfl, rfl⟩

theorem write_access (cs : List UInt8) (d : Fd) : SameAccess d (d.write cs).2 := by
  rw [Fd.write]
  split <;> exact ⟨rfl, rfl, rfl⟩

theorem lseek_access (off : Int) (whence : Nat) (d : Fd) : SameAccess d (d.lseek off whence).2 := by
  unfold Fd.lseek
  split <;> exact ⟨rfl, rfl, rfl⟩

/-- A stream is of the same kind. -/
structure SameKind (p p' : Stream) : Prop where
  access : SameAccess p.fd p'.fd
  iorw : p'.iorw = p.iorw
  flags : p.iorw = false → p'.ioread = p.ioread ∧ p'.iowrt = p.iowrt
  bufsiz : p'.base = true → p'.bufsiz = BUFSIZ

theorem Static.same (h : Static p d) (hp : SameKind p p') (hd : SameAccess d d') : Static p' d' where
  readable := hp.access.readable.trans (h.readable.trans hd.readable.symm)
  writable := hp.access.writable.trans (h.writable.trans hd.writable.symm)
  append := hp.access.append.trans (h.append.trans hd.append.symm)
  iorw := by rw [hp.iorw, h.iorw, hd.readable, hd.writable]
  ioread := fun hrw => by
    rw [hp.iorw] at hrw
    rw [(hp.flags hrw).1, h.ioread hrw, hd.readable]
  iowrt := fun hrw => by
    rw [hp.iorw] at hrw
    rw [(hp.flags hrw).2, h.iowrt hrw, hd.writable]
  some_use := by
    rw [hd.readable, hd.writable]
    exact h.some_use
  appendOnly := by
    rw [hd.append, hd.readable]
    exact h.appendOnly
  bufsiz := hp.bufsiz

/-- Filling the buffer gives the byte that a direct read gives. -/
theorem fill_spec (hbufsiz : p.bufsiz = BUFSIZ) (hbase : p.base = true) (hioread : p.ioread = true)
    (hiowrt : p.iowrt = false) (hfd : p.fd = d) (hr : d.readable = true) (hpos : 0 ≤ d.f_offset) :
    p.fill.1 = d.fgetc.1 ∧ Agrees p.fill.2 d.fgetc.2 (some .reading) := by
  have hbuf : BUFSIZ = 1024 := rfl
  subst hfd
  rw [Stream.fill, read_spec hr hpos, hbufsiz]
  by_cases hin : p.fd.f_offset < p.fd.file.size
  · obtain ⟨n, hn⟩ : ∃ n, min BUFSIZ (p.fd.file.size - p.fd.f_offset.toNat) = n + 1 :=
      Nat.exists_eq_add_one.mpr (by omega)
    have hle : n + 1 ≤ p.fd.file.size - p.fd.f_offset.toNat := hn ▸ Nat.min_le_right ..
    rw [fgetc_some hr hpos hin, hn, bytes]
    dsimp only
    refine ⟨rfl, .reading n ?_ ?_ hioread hiowrt hbase rfl ?_ (fun i hi => ?_) (fun _ => ?_)
      fun _ => rfl⟩
    · rw [bytes_length]
    · omega
    · dsimp only
      push_cast
      omega
    · have hcopied : store p.buffer 0 (bytes p.fd.file.data p.fd.f_offset.toNat (n + 1)) (0 + (i + 1)) =
          p.fd.file.data (p.fd.f_offset.toNat + (i + 1)) := store_bytes (by omega)
      have hnext : (p.fd.f_offset + 1).toNat + i = p.fd.f_offset.toNat + (i + 1) := by omega
      have hzero : 1 + i = 0 + (i + 1) := by omega
      dsimp only
      rw [hnext, hzero]
      exact hcopied
    · dsimp only
      omega
  · have hzero : min BUFSIZ (p.fd.file.size - p.fd.f_offset.toNat) = 0 := by omega
    rw [fgetc_none hr hpos (Int.not_lt.mp hin), hzero]
    refine ⟨rfl, .reading 0 rfl (Nat.zero_le _) hioread hiowrt hbase rfl rfl
      (fun i hi => absurd hi (Nat.not_lt_zero i)) (fun h => absurd h (Nat.lt_irrefl 0)) fun _ => rfl⟩

theorem fill_kind (p : Stream) (hbufsiz : p.bufsiz = BUFSIZ) : SameKind p p.fill.2 := by
  have haccess := read_access p.bufsiz p.fd
  rw [Stream.fill]
  split <;> exact ⟨by simp_all, rfl, fun _ => ⟨rfl, rfl⟩, fun _ => hbufsiz⟩

theorem fgetc_access (d : Fd) : SameAccess d d.fgetc.2 := by
  have haccess := read_access 1 d
  rw [Fd.fgetc]
  split <;> simp_all

/-- After a direct read the position is in range, and so is the stream's. -/
theorem reading_range (hrange : InRange p d) (hr : d.readable = true)
    (h : Agrees p' d.fgetc.2 (some .reading)) (hread : p'.ioread = true) : InRange p' d.fgetc.2 := by
  obtain ⟨hpos, hsize, -⟩ := hrange
  have hafter : d.fgetc.2.file = d.file ∧ IsPos d.fgetc.2.f_offset := by
    by_cases hin : d.f_offset < d.file.size
    · rw [fgetc_some hr hpos.1 hin]
      exact ⟨rfl, by have := hpos.1; constructor <;> dsimp only <;> omega⟩
    · rw [fgetc_none hr hpos.1 (Int.not_lt.mp hin)]
      exact ⟨rfl, hpos⟩
  refine ⟨hafter.2, hafter.1 ▸ hsize, ?_⟩
  cases h with
  | idle cnt ptr fd flags base => exact fd ▸ hafter.2
  | reading n cnt le ioread iowrt base file offset ahead inFile use =>
      obtain ⟨hlow, hhigh⟩ := hafter.2
      rw [hafter.1] at inFile
      rw [offset]
      rcases Nat.eq_zero_or_pos n with hzero | hsome
      · exact ⟨by omega, by omega⟩
      · have hin := inFile hsome
        exact ⟨by omega, by omega⟩
  | writing cnt le ioread => exact absurd (hread.symm.trans ioread) (by decide)
  | stale cnt ptr fd => exact fd ▸ hafter.2

theorem Stream.fill_ioread (p : Stream) : p.fill.2.ioread = p.ioread := by
  rw [Stream.fill]
  split <;> rfl

/-- Filling the buffer of a stream that is where its descriptor is. -/
theorem filbuf_synced (hs : Static p d) (hrange : InRange p d) (hfd : p.fd = d) (hr : d.readable = true)
    (hmem : mem = true) :
    (_filbuf mem p).1 = d.fgetc.1 ∧ Synced (_filbuf mem p).2 d.fgetc.2 (some .reading) := by
  have hfill : ∀ q : Stream, SameKind p q → q.bufsiz = BUFSIZ → q.base = true → q.ioread = true →
      q.iowrt = false → q.fd = d →
      q.fill.1 = d.fgetc.1 ∧ Synced q.fill.2 d.fgetc.2 (some .reading) := by
    intro q hkind hbufsiz hbase hioread hiowrt hq
    obtain ⟨hresult, hagrees⟩ := fill_spec hbufsiz hbase hioread hiowrt hq hr hrange.pos.1
    have hstatic := (hs.same hkind ⟨rfl, rfl, rfl⟩).same (fill_kind q hbufsiz) (fgetc_access d)
    have hread : q.fill.2.ioread = true := q.fill_ioread.trans hioread
    exact ⟨hresult, hstatic, reading_range hrange hr hagrees hread, hagrees⟩
  obtain ⟨q, hq, hkind, hbase, hbufsiz, hioread, hiowrt, hqfd⟩ :
      ∃ q, (if p.iorw then { p with iowrt := false, ioread := true } else p) = q ∧ SameKind p q ∧
        q.base = p.base ∧ q.bufsiz = p.bufsiz ∧ q.ioread = true ∧ q.iowrt = false ∧ q.fd = d := by
    refine ⟨_, rfl, ?_⟩
    by_cases hrw : p.iorw = true
    · rw [if_pos hrw]
      exact ⟨⟨⟨rfl, rfl, rfl⟩, rfl, fun h => absurd (hrw.symm.trans h) (by decide), hs.bufsiz⟩, rfl, rfl,
        rfl, rfl, hfd⟩
    · rw [if_neg hrw]
      have hrw := (Bool.not_eq_true _).mp hrw
      have hwrite : d.writable = false := by
        have hboth := hs.iorw
        rw [hrw, hr, Bool.true_and] at hboth
        exact hboth.symm
      exact ⟨⟨⟨rfl, rfl, rfl⟩, rfl, fun _ => ⟨rfl, rfl⟩, hs.bufsiz⟩, rfl, rfl,
        (hs.ioread hrw).trans hr, (hs.iowrt hrw).trans hwrite, hfd⟩
  rw [_filbuf, hq]
  rw [if_neg (by rw [hioread]; decide)]
  cases hb : q.base with
  | true =>
      rw [if_neg (by decide)]
      exact hfill q hkind (hbufsiz.trans (hs.bufsiz (hbase.symm.trans hb))) hb hioread hiowrt hqfd
  | false =>
      rw [if_pos rfl, _getbuf, if_pos (.inr hmem)]
      exact hfill _ ⟨hkind.access, hkind.iorw, hkind.flags, fun _ => rfl⟩ rfl rfl hioread hiowrt hqfd

/-- A byte is read as the file has it. -/
theorem fgetc_synced (h : Synced p d last) (hr : d.readable = true) (hmem : mem = true)
    (hfits : ¬ Stale p) (huse : d.writable = true → last ≠ some .writing) :
    (fgetc mem p).1 = d.fgetc.1 ∧ Synced (fgetc mem p).2 d.fgetc.2 (some .reading) := by
  obtain ⟨hs, hrange, hagrees⟩ := h
  have hslow : p.cnt = 0 → p.fd = d →
      (fgetc mem p).1 = d.fgetc.1 ∧ Synced (fgetc mem p).2 d.fgetc.2 (some .reading) := by
    intro hcnt hfd
    have hneg : int (p.cnt - 1) < 0 := by
      rw [hcnt]
      decide
    rw [fgetc]
    dsimp only
    rw [if_pos hneg]
    exact filbuf_synced (hs.same ⟨⟨rfl, rfl, rfl⟩, rfl, fun _ => ⟨rfl, rfl⟩, hs.bufsiz⟩ ⟨rfl, rfl, rfl⟩)
      ⟨hrange.pos, hrange.size, hrange.fpos⟩ hfd hr hmem
  cases hagrees with
  | idle cnt ptr fd flags base => exact hslow cnt fd
  | reading n cnt le ioread iowrt base file offset ahead inFile use =>
      cases n with
      | zero =>
          refine hslow cnt (Fd.ext file ?_ hs.readable hs.writable hs.append)
          omega
      | succ n =>
          have hin := inFile (Nat.succ_pos n)
          have hbuf : BUFSIZ = 1024 := rfl
          have hpos := hrange.pos
          have hcnt : int (p.cnt - 1) = n := by
            rw [cnt, int]
            omega
          have hbyte := ahead 0 (Nat.succ_pos n)
          rw [Nat.add_zero, Nat.add_zero] at hbyte
          have hdirect := fgetc_some hr hpos.1 (by omega)
          have hfast : fgetc mem p =
              (((p.buffer p.ptr).toNat : Int), { p with cnt := n, ptr := p.ptr + 1 }) := by
            rw [fgetc]
            dsimp only
            rw [hcnt, if_neg (by omega)]
          rw [hfast, hdirect, hbyte]
          refine ⟨rfl, hs.same ⟨⟨rfl, rfl, rfl⟩, rfl, fun _ => ⟨rfl, rfl⟩, hs.bufsiz⟩ ⟨rfl, rfl, rfl⟩,
            ⟨⟨?_, ?_⟩, hrange.size, hrange.fpos⟩,
            .reading n rfl (by omega) ioread iowrt base file ?_ (fun i hi => ?_) (fun _ => ?_) fun _ => rfl⟩
          · have hlow := hpos.1
            dsimp only
            omega
          · have hsize := hrange.size
            dsimp only
            omega
          · dsimp only
            rw [offset]
            push_cast
            omega
          · have hnext := ahead (i + 1) (by omega)
            have hoff : (d.f_offset + 1).toNat + i = d.f_offset.toNat + (i + 1) := by
              have hlow := hpos.1
              omega
            dsimp only
            rw [hoff, ← hnext]
            congr 1
            omega
          · dsimp only
            push_cast at hin
            omega
  | writing cnt le ioread iowrt base fd use =>
      cases hrw : p.iorw with
      | true =>
          have hboth := hs.iorw
          rw [hrw, hr, Bool.true_and] at hboth
          exact absurd (use hrw) (huse hboth.symm)
      | false => exact absurd ((hs.ioread hrw).symm.trans ioread) (by rw [hr]; decide)
  | stale cnt ptr fd iorw ioread iowrt =>
      refine absurd ⟨iorw, ioread, iowrt, ?_⟩ hfits
      rw [cnt]
      decide

/-! ## Writing -/

theorem writeOffset_nonneg (h : 0 ≤ d.f_offset) : 0 ≤ d.writeOffset := by
  rw [Fd.writeOffset]
  split
  · exact Int.natCast_nonneg _
  · exact h

theorem write_eq {cs : List UInt8} (hw : d.writable = true) (hpos : 0 ≤ d.f_offset) :
    d.write cs = (true, { d with
      file := d.file.write d.writeOffset.toNat cs
      f_offset := d.writeOffset + cs.length }) := by
  rw [Fd.write, if_pos ⟨hw, writeOffset_nonneg hpos⟩]

theorem fputc_eq (c : UInt8) (hw : d.writable = true) (hpos : 0 ≤ d.f_offset) :
    d.fputc c = ((c.toNat : Int), (d.write [c]).2) := by
  have htrue : (d.write [c]).1 = true := by rw [write_eq hw hpos]
  rw [Fd.fputc, if_pos htrue]

theorem Static.writable_of_iowrt (hs : Static p d) (h : p.iowrt = true) :
    d.writable = true := by
  cases hrw : p.iorw with
  | true =>
      have hboth := hs.iorw
      rw [hrw] at hboth
      exact (Bool.and_eq_true_iff.mp hboth.symm).2
  | false => exact (hs.iowrt hrw).symm.trans h

/-- Flushing brings the descriptor to the position. -/
theorem flush_eq (hs : Static p d) (hrange : InRange p d) (hiowrt : p.iowrt = true)
    (hfd : d = if p.ptr = 0 then p.fd else (p.fd.write (bytes p.buffer 0 p.ptr)).2) :
    _flush p = (0, { p with ptr := 0, cnt := p.bufsiz, fd := d }) := by
  have hw := hs.writable.trans (hs.writable_of_iowrt hiowrt)
  rw [_flush]
  dsimp only
  by_cases hptr : p.ptr = 0
  · rw [if_pos hptr] at hfd
    rw [if_neg (by omega), hfd]
  · rw [if_neg hptr] at hfd
    have htrue : (p.fd.write (bytes p.buffer 0 p.ptr)).1 = true := by rw [write_eq hw hrange.fpos.1]
    rw [if_pos (Nat.pos_of_ne_zero hptr), htrue, if_pos rfl, ← hfd]

/-- The room for `n` bytes before the largest position. -/
def Fits (n : Nat) (d : Fd) : Prop := d.writeOffset + n < 2147483648

instance (n : Nat) (d : Fd) : Decidable (Fits n d) := inferInstanceAs (Decidable (_ < _))

theorem write_range (hrange : InRange p d) (hw : d.writable = true) (hfits : Fits 1 d)
    (hfpos : IsPos p'.fd.f_offset) : InRange p' (d.write [c]).2 := by
  have hpos := writeOffset_nonneg hrange.pos.1
  have hsize := hrange.size
  rw [Fits] at hfits
  rw [write_eq hw hrange.pos.1]
  refine ⟨⟨?_, ?_⟩, ?_, hfpos⟩
  · simp only [List.length_singleton]
    omega
  · simp only [List.length_singleton]
    omega
  · simp only [File.write, List.length_singleton]
    omega

/-- A stream that writes, and where it is. -/
def Writing (p : Stream) (d : Fd) : Prop := p.iowrt = true ∧ Synced p d (some .writing)

/-- The first byte in an empty buffer. -/
theorem putFirst_synced (c : UInt8) (hs : Static p d) (hrange : InRange p d) (hw : d.writable = true)
    (hfits : Fits 1 d) (hfd : p.fd = d) (hptr : p.ptr = 0) (hbase : p.base = true)
    (hioread : p.ioread = false) (hiowrt : p.iowrt = true) :
    Writing (p.putFirst c) (d.write [c]).2 := by
  have hbuf : BUFSIZ = 1024 := rfl
  have hkind : SameKind p (p.putFirst c) := ⟨⟨rfl, rfl, rfl⟩, rfl, fun _ => ⟨rfl, rfl⟩, hs.bufsiz⟩
  refine ⟨hiowrt, hs.same hkind (write_access [c] d), write_range hrange hw hfits hrange.fpos,
    .writing ?_ ?_ hioread hiowrt hbase ?_ fun _ => rfl⟩
  · simp only [Stream.putFirst, hs.bufsiz hbase, hptr]
    omega
  · simp only [Stream.putFirst, hptr]
    omega
  · simp only [Stream.putFirst, hptr]
    rw [if_neg (by decide), hfd]
    simp [bytes]

/-- `_flsbuf` for a stream that has nothing buffered, or a full buffer. -/
theorem flsbuf_synced (c : UInt8) (hs : Static p d) (hrange : InRange p d) (hw : d.writable = true)
    (hmem : mem = true) (hfits : Fits 1 d)
    (hfd : d = if p.ptr = 0 then p.fd else (p.fd.write (bytes p.buffer 0 p.ptr)).2)
    (hbase : p.base = false → p.ptr = 0) :
    _flsbuf mem c p = ((c.toNat : Int), (_flsbuf mem c p).2) ∧
      Writing (_flsbuf mem c p).2 (d.write [c]).2 := by
  obtain ⟨q, hq, hs', hbase', hptr, hbuffer, hioread, hiowrt, hqfd⟩ :
      ∃ q, (if p.iorw then { p with ioread := false, iowrt := true } else p) = q ∧ Static q d ∧
        q.base = p.base ∧ q.ptr = p.ptr ∧ q.buffer = p.buffer ∧ q.ioread = false ∧ q.iowrt = true ∧
        q.fd = p.fd := by
    refine ⟨_, rfl, ?_⟩
    by_cases hrw : p.iorw = true
    · rw [if_pos hrw]
      have hkind : SameKind p { p with ioread := false, iowrt := true } :=
        ⟨⟨rfl, rfl, rfl⟩, rfl, fun h => absurd (hrw.symm.trans h) (by decide), hs.bufsiz⟩
      exact ⟨hs.same hkind ⟨rfl, rfl, rfl⟩, rfl, rfl, rfl, rfl, rfl, rfl⟩
    · rw [if_neg hrw]
      have hrw := (Bool.not_eq_true _).mp hrw
      have hread : d.readable = false := by
        have hboth := hs.iorw
        rw [hrw, hw, Bool.and_true] at hboth
        exact hboth.symm
      exact ⟨hs, rfl, rfl, rfl, (hs.ioread hrw).trans hread, (hs.iowrt hrw).trans hw, rfl⟩
  have hrange' : InRange q d := ⟨hrange.pos, hrange.size, hqfd ▸ hrange.fpos⟩
  rw [_flsbuf, hq, if_neg (by rw [hiowrt]; decide)]
  cases hb : q.base with
  | false =>
      have hzero := hbase (hbase'.symm.trans hb)
      rw [if_pos hzero] at hfd
      rw [if_pos rfl, _getbuf, if_pos (.inr hmem)]
      refine ⟨rfl, ?_⟩
      have hkind : SameKind q { q with slot := true, base := true, ptr := 0, bufsiz := BUFSIZ } :=
        ⟨⟨rfl, rfl, rfl⟩, rfl, fun _ => ⟨rfl, rfl⟩, fun _ => rfl⟩
      exact putFirst_synced c (hs'.same hkind ⟨rfl, rfl, rfl⟩)
        ⟨hrange'.pos, hrange'.size, hrange'.fpos⟩ hw hfits (hqfd.trans hfd.symm) rfl rfl hioread hiowrt
  | true =>
      rw [if_neg (by decide)]
      by_cases hzero : q.ptr = 0
      · rw [if_neg (by omega)]
        rw [if_pos (hptr.symm.trans hzero)] at hfd
        exact ⟨rfl, putFirst_synced c hs' hrange' hw hfits (hqfd.trans hfd.symm) hzero hb hioread hiowrt⟩
      · have hflush : _flush q = (0, { q with ptr := 0, cnt := q.bufsiz, fd := d }) := by
          refine flush_eq hs' hrange' hiowrt ?_
          rw [hptr, hqfd, hbuffer]
          exact hfd
        rw [if_pos (Nat.pos_of_ne_zero hzero), hflush]
        dsimp only
        rw [if_neg (by decide)]
        have hkind : SameKind q { q with ptr := 0, cnt := q.bufsiz, fd := d } :=
          ⟨⟨hs'.readable.symm, hs'.writable.symm, hs'.append.symm⟩, rfl, fun _ => ⟨rfl, rfl⟩, hs'.bufsiz⟩
        exact ⟨rfl, putFirst_synced c (hs'.same hkind ⟨rfl, rfl, rfl⟩)
          ⟨hrange.pos, hrange.size, hrange.pos⟩ hw hfits rfl rfl hb hioread hiowrt⟩

/-- A byte is written as the file takes it. -/
theorem fputc_synced (c : UInt8) (h : Synced p d last) (hw : d.writable = true) (hmem : mem = true)
    (hfits : Fits 1 d) (hstale : ¬ Stale p) (huse : d.readable = true → last ≠ some .reading) :
    (fputc mem c p).1 = (d.fputc c).1 ∧ Writing (fputc mem c p).2 (d.fputc c).2 := by
  obtain ⟨hs, hrange, hagrees⟩ := h
  have hbuf : BUFSIZ = 1024 := rfl
  rw [fputc_eq c hw hrange.pos.1]
  have hslow : p.cnt = 0 → (d = if p.ptr = 0 then p.fd else (p.fd.write (bytes p.buffer 0 p.ptr)).2) →
      (p.base = false → p.ptr = 0) →
      (fputc mem c p).1 = c.toNat ∧ Writing (fputc mem c p).2 (d.write [c]).2 := by
    intro hcnt hfd hbase
    have hneg : int (p.cnt - 1) < 0 := by
      rw [hcnt]
      decide
    rw [fputc]
    dsimp only
    rw [if_pos hneg]
    have hkind : SameKind p { p with cnt := int (p.cnt - 1) } :=
      ⟨⟨rfl, rfl, rfl⟩, rfl, fun _ => ⟨rfl, rfl⟩, hs.bufsiz⟩
    obtain ⟨hresult, hsynced⟩ := flsbuf_synced c (hs.same hkind ⟨rfl, rfl, rfl⟩)
      ⟨hrange.pos, hrange.size, hrange.fpos⟩ hw hmem hfits hfd hbase
    exact ⟨congrArg Prod.fst hresult, hsynced⟩
  cases hagrees with
  | idle cnt ptr fd flags base =>
      refine hslow cnt ?_ fun _ => ptr
      rw [if_pos ptr, fd]
  | writing cnt le ioread iowrt base fd use =>
      by_cases hfull : p.ptr = 1024
      · refine hslow (by omega) fd fun hb => absurd (base.symm.trans hb) (by decide)
      · have hcnt : int (p.cnt - 1) = p.cnt - 1 := by
          rw [int]
          omega
        have hfast : fputc mem c p = ((c.toNat : Int),
            { p with cnt := p.cnt - 1, buffer := Function.update p.buffer p.ptr c, ptr := p.ptr + 1 }) := by
          rw [fputc]
          dsimp only
          rw [hcnt, if_neg (by omega)]
        have hkind : SameKind p
            { p with cnt := p.cnt - 1, buffer := Function.update p.buffer p.ptr c, ptr := p.ptr + 1 } :=
          ⟨⟨rfl, rfl, rfl⟩, rfl, fun _ => ⟨rfl, rfl⟩, hs.bufsiz⟩
        have hgrown : bytes (Function.update p.buffer p.ptr c) 0 (p.ptr + 1) =
            bytes p.buffer 0 p.ptr ++ [c] := by
          have hrun := bytes_update p.buffer 0 p.ptr c
          rw [Nat.zero_add] at hrun
          exact hrun
        rw [hfast]
        refine ⟨rfl, iowrt, hs.same hkind (write_access [c] d), write_range hrange hw hfits hrange.fpos,
          .writing ?_ ?_ ioread iowrt base ?_ fun _ => rfl⟩
        · dsimp only
          rw [cnt]
          push_cast
          omega
        · dsimp only
          omega
        · dsimp only
          rw [if_neg (Nat.succ_ne_zero _), hgrown]
          by_cases hzero : p.ptr = 0
          · rw [if_pos hzero] at fd
            rw [fd, hzero]
            rfl
          · rw [if_neg hzero] at fd
            have hsome : bytes p.buffer 0 p.ptr ≠ [] := by
              intro hnil
              have hlength := bytes_length p.buffer 0 p.ptr
              rw [hnil] at hlength
              exact hzero hlength.symm
            rw [Fd.write_append (writeOffset_nonneg hrange.fpos.1) (hs.writable.trans hw) hsome, ← fd]
  | reading n cnt le ioread iowrt base file offset ahead inFile use =>
      cases hrw : p.iorw with
      | true =>
          have hboth := hs.iorw
          rw [hrw, hw, Bool.and_true] at hboth
          exact absurd (use hrw) (huse hboth.symm)
      | false => exact absurd ((hs.iowrt hrw).symm.trans iowrt) (by rw [hw]; decide)
  | stale cnt ptr fd iorw ioread iowrt =>
      refine absurd ⟨iorw, ioread, iowrt, ?_⟩ hstale
      rw [cnt]
      decide

theorem toNat_ne_EOF (c : UInt8) : ((c.toNat : Int)) ≠ EOF := by
  have hlow : (0 : Int) ≤ c.toNat := Int.natCast_nonneg _
  rw [EOF]
  omega

theorem fits_write {n : Nat} (hw : d.writable = true) (hpos : 0 ≤ d.f_offset) (h : Fits (n + 1) d) :
    Fits n (d.write [c]).2 := by
  rw [Fits, Fd.writeOffset_write (writeOffset_nonneg hpos) hw fun _ => List.cons_ne_nil _ _]
  rw [Fits] at h
  rw [List.length_singleton]
  push_cast at h ⊢
  omega

/-- A string is written as the file takes it. -/
theorem fputs_synced (cs : List UInt8) (h : Synced p d last) (hw : cs ≠ [] → d.writable = true)
    (hmem : mem = true) (hfits : Fits cs.length d) (hstale : cs ≠ [] → ¬ Stale p)
    (huse : cs ≠ [] → d.readable = true → last ≠ some .reading) :
    (fputs mem cs p).1 = (d.fputs cs).1 ∧
      Synced (fputs mem cs p).2 (d.fputs cs).2 (if cs = [] then last else some .writing) := by
  induction cs generalizing p d last with
  | nil => exact ⟨rfl, h⟩
  | cons c cs ih =>
      have hne : c :: cs ≠ [] := List.cons_ne_nil _ _
      have hpos := h.range.pos.1
      have hone : Fits 1 d := by
        rw [Fits, List.length_cons] at hfits
        rw [Fits]
        push_cast at hfits ⊢
        omega
      obtain ⟨hresult, hiowrt, hsynced⟩ := fputc_synced c h (hw hne) hmem hone (hstale hne) (huse hne)
      have hdirect := fputc_eq c (hw hne) hpos
      have hvalue : (d.fputc c).1 ≠ -1 := by
        rw [hdirect]
        exact toNat_ne_EOF c
      have hvalue' : (fputc mem c p).1 ≠ EOF := hresult ▸ hvalue
      have hw' : (d.fputc c).2.writable = true := by
        rw [hdirect]
        exact (write_access [c] d).writable.trans (hw hne)
      have hfits' : Fits cs.length (d.fputc c).2 := by
        rw [hdirect]
        exact fits_write (hw hne) hpos hfits
      have hnotStale : ¬ Stale (fputc mem c p).2 := fun hstale =>
        absurd (hiowrt.symm.trans hstale.2.2.1) (by decide)
      obtain ⟨hrest, hlast⟩ := ih hsynced (fun _ => hw') hfits' (fun _ => hnotStale)
        (fun _ _ => by decide)
      rw [fputs, Fd.fputs, if_neg hvalue', if_neg hvalue, if_neg hne]
      refine ⟨hrest, ?_⟩
      cases cs with
      | nil => exact hlast
      | cons _ _ => exact hlast

/-! ## Seeking and telling -/

theorem int_lt (n : Int) : int n < 2147483648 := by
  rw [int]
  omega

theorem lseek_isPos {off : Int} {whence : Nat} (h : 0 ≤ (d.lseek off whence).1) :
    IsPos (d.lseek off whence).2.f_offset ∧ (d.lseek off whence).2.file = d.file := by
  unfold Fd.lseek at h ⊢
  split at h
  · exact ⟨⟨h, int_lt _⟩, rfl⟩
  · exact ⟨⟨h, int_lt _⟩, rfl⟩
  · exact ⟨⟨h, int_lt _⟩, rfl⟩
  · exact absurd h (Int.not_le.mpr (Int.negSucc_lt_zero 0))

/-- The end of `fseek`, when the descriptor is where a direct seek starts. -/
theorem seek_eq {off off' : Int} {whence : Nat} (hseek : p.fd.lseek off' whence = d.lseek off whence) :
    p.seek off' whence = ((d.fseek off whence).1,
      { p with
        ioeof := false
        ioread := if p.iorw then false else p.ioread
        iowrt := if p.iorw then false else p.iowrt
        fd := (d.lseek off whence).2 }) := by
  by_cases hrw : p.iorw = true
  · simp only [Stream.seek, Fd.fseek, hrw, if_true, hseek]
  · simp only [Stream.seek, Fd.fseek, hrw, if_false, hseek, Bool.false_eq_true]

/-- What a seek leaves of a stream with nothing to write. -/
theorem seek_synced {off off' : Int} {whence : Nat} (hs : Static p d) (hrange : InRange p d)
    (hseek : p.fd.lseek off' whence = d.lseek off whence) (hpos : 0 ≤ (d.lseek off whence).1)
    (hptr : p.ptr = 0) (hcnt : p.cnt = 0 ∧ (p.iorw = false → p.iowrt = true → p.base = false) ∨
      p.cnt = BUFSIZ ∧ (p.iorw = true ∨ p.ioread = false ∧ p.iowrt = true ∧ p.base = true)) :
    (p.seek off' whence).1 = (d.fseek off whence).1 ∧
      Synced (p.seek off' whence).2 (d.fseek off whence).2 none := by
  obtain ⟨hafter, hfile⟩ := lseek_isPos hpos
  have haccess := lseek_access off whence d
  rw [seek_eq hseek]
  have hkind : SameKind p { p with
      ioeof := false
      ioread := if p.iorw then false else p.ioread
      iowrt := if p.iorw then false else p.iowrt
      fd := (d.lseek off whence).2 } := by
    refine ⟨⟨haccess.readable.trans hs.readable.symm, haccess.writable.trans hs.writable.symm,
      haccess.append.trans hs.append.symm⟩, rfl, fun hrw => ?_, hs.bufsiz⟩
    have hnot : ¬ p.iorw = true := by
      rw [hrw]
      decide
    exact ⟨if_neg hnot, if_neg hnot⟩
  refine ⟨rfl, hs.same hkind haccess, ⟨hafter, hfile ▸ hrange.size, hafter⟩, ?_⟩
  by_cases hrw : p.iorw = true
  · rcases hcnt with ⟨hzero, -⟩ | ⟨hfull, -⟩
    · refine .idle hzero hptr rfl (fun _ => ⟨if_pos hrw, if_pos hrw⟩) fun hiowrt => ?_
      dsimp only at hiowrt
      rw [if_pos hrw] at hiowrt
      exact absurd hiowrt (by decide)
    · exact .stale hfull hptr rfl hrw (if_pos hrw) (if_pos hrw)
  · rcases hcnt with ⟨hzero, hbase⟩ | ⟨hfull, hwriting⟩
    · refine .idle hzero hptr rfl (fun hrw' => absurd hrw' hrw) fun hiowrt => ?_
      dsimp only at hiowrt
      rw [if_neg hrw] at hiowrt
      exact hbase ((Bool.not_eq_true _).mp hrw) hiowrt
    · obtain ⟨hioread, hiowrt, hbase⟩ := hwriting.resolve_left hrw
      refine .writing ?_ ?_ ((if_neg hrw).trans hioread) ((if_neg hrw).trans hiowrt) hbase ?_
        fun hrw' => absurd hrw' hrw
      · dsimp only
        rw [hfull, hptr]
        rfl
      · dsimp only
        rw [hptr]
        exact Nat.zero_le _
      · dsimp only
        rw [if_pos hptr]
        rfl

/-- A seek by `off - n` from `n` bytes ahead. -/
theorem lseek_back {n : Nat} {off : Int} {whence : Nat} {d' : Fd} (hfile : d'.file = d.file)
    (hoffset : d'.f_offset = d.f_offset + n) (haccess : SameAccess d d')
    (hpos : 0 ≤ (d.lseek off whence).1) :
    d'.lseek (if whence = 1 ∧ (n : Int) > 0 then int (off - n) else off) whence = d.lseek off whence := by
  have hfd : ∀ offset, ({ d' with f_offset := offset } : Fd) = { d with f_offset := offset } := fun offset =>
    Fd.ext hfile rfl haccess.readable haccess.writable haccess.append
  match whence, hpos with
  | 0, _ =>
      rw [if_neg fun h => absurd h.1 (by decide)]
      exact Prod.ext rfl (hfd _)
  | 1, _ =>
      have htarget : int (d'.f_offset + if 1 = 1 ∧ (n : Int) > 0 then int (off - n) else off) =
          int (d.f_offset + off) := by
        rw [hoffset]
        split
        · simp only [int]
          omega
        · congr 1
          omega
      rw [Fd.lseek, Fd.lseek, htarget]
      exact Prod.ext rfl (hfd _)
  | 2, _ =>
      rw [if_neg fun h => absurd h.1 (by decide)]
      have htarget : int (off + d'.file.size) = int (off + d.file.size) := by rw [hfile]
      rw [Fd.lseek, Fd.lseek, htarget]
      exact Prod.ext rfl (hfd _)
  | _ + 3, hpos => exact absurd hpos (Int.not_le.mpr (Int.negSucc_lt_zero 0))

/-- `fflush` of a stream that writes brings its descriptor to the position. -/
theorem fflush_eq (h : Synced p d last) (hiowrt : p.iowrt = true) :
    (p.base = false ∧ p.cnt = 0 ∧ p.ptr = 0 ∧ p.fd = d ∧ p.iorw = false ∧ fflush p = (0, p)) ∨
      (p.base = true ∧ p.ioread = false ∧
        fflush p = (0, { p with ptr := 0, cnt := BUFSIZ, fd := d })) := by
  obtain ⟨hs, hrange, hagrees⟩ := h
  cases hagrees with
  | idle cnt ptr fd flags base =>
      have hbase := base hiowrt
      have hrw : p.iorw = false := by
        cases hrw : p.iorw with
        | false => rfl
        | true => exact absurd (hiowrt.symm.trans (flags hrw).2) (by decide)
      refine .inl ⟨hbase, cnt, ptr, fd, hrw, ?_⟩
      rw [fflush, if_neg fun h => absurd (hbase.symm.trans h.2) (by decide)]
  | writing cnt le ioread iowrt base fd use =>
      refine .inr ⟨base, ioread, ?_⟩
      rw [fflush, if_pos ⟨iowrt, base⟩, flush_eq hs hrange iowrt fd, hs.bufsiz base]
  | reading n cnt le ioread iowrt => exact absurd (hiowrt.symm.trans iowrt) (by decide)
  | stale cnt ptr fd iorw ioread iowrt => exact absurd (hiowrt.symm.trans iowrt) (by decide)

theorem flushed_static (hs : Static p d) :
    Static { p with ptr := 0, cnt := BUFSIZ, fd := d } d := by
  have hkind : SameKind p { p with ptr := 0, cnt := BUFSIZ, fd := d } :=
    ⟨⟨hs.readable.symm, hs.writable.symm, hs.append.symm⟩, rfl, fun _ => ⟨rfl, rfl⟩, hs.bufsiz⟩
  exact hs.same hkind ⟨rfl, rfl, rfl⟩

/-- A seek goes where it goes in the file. -/
theorem fseek_synced {off : Int} {whence : Nat} (h : Synced p d last)
    (hpos : 0 ≤ (d.lseek off whence).1) :
    (fseek off whence p).1 = (d.fseek off whence).1 ∧
      Synced (fseek off whence p).2 (d.fseek off whence).2 none := by
  obtain ⟨hs, hrange, hagrees⟩ := h
  have hzero : (0 : Int) ≠ EOF := by decide
  rw [fseek]
  by_cases hiowrt : p.iowrt = true
  · rw [if_pos hiowrt]
    rcases fflush_eq ⟨hs, hrange, hagrees⟩ hiowrt with
      ⟨hbase, hcnt, hptr, hfd, -, hflush⟩ | ⟨hbase, hioread, hflush⟩
    · rw [hflush, if_neg hzero]
      exact seek_synced hs hrange (by rw [hfd]) hpos hptr (.inl ⟨hcnt, fun _ _ => hbase⟩)
    · rw [hflush, if_neg hzero]
      exact seek_synced (flushed_static hs) ⟨hrange.pos, hrange.size, hrange.pos⟩ rfl hpos rfl
        (.inr ⟨rfl, .inr ⟨hioread, hiowrt, hbase⟩⟩)
  rw [if_neg hiowrt]
  by_cases hioread : p.ioread = true
  · rw [if_pos hioread]
    have hkind : SameKind p { p with cnt := 0, ptr := 0 } :=
      ⟨⟨rfl, rfl, rfl⟩, rfl, fun _ => ⟨rfl, rfl⟩, hs.bufsiz⟩
    have hdropped := hs.same hkind (⟨rfl, rfl, rfl⟩ : SameAccess d d)
    have hrange' : InRange { p with cnt := 0, ptr := 0 } d := ⟨hrange.pos, hrange.size, hrange.fpos⟩
    have haccess : SameAccess d p.fd := ⟨hs.readable, hs.writable, hs.append⟩
    have hseek : p.fd.lseek (if whence = 1 ∧ p.cnt > 0 then int (off - p.cnt) else off) whence =
        d.lseek off whence := by
      cases hagrees with
      | idle cnt ptr fd flags base =>
          rw [cnt, if_neg fun h => absurd h.2 (by decide), fd]
      | reading n cnt le ioread iowrt base file offset ahead inFile use =>
          rw [cnt]
          exact lseek_back file offset haccess hpos
      | writing cnt le ioread iowrt => exact absurd iowrt hiowrt
      | stale cnt ptr fd iorw ioread => exact absurd (hioread.symm.trans ioread) (by decide)
    exact seek_synced hdropped hrange' hseek hpos rfl
      (.inl ⟨rfl, fun _ hw => absurd hw hiowrt⟩)
  · rw [if_neg hioread]
    cases hagrees with
    | idle cnt ptr fd flags base =>
        exact seek_synced hs hrange (by rw [fd]) hpos ptr (.inl ⟨cnt, fun _ hw => absurd hw hiowrt⟩)
    | reading n cnt le ioread => exact absurd ioread hioread
    | writing cnt le ioread iowrt => exact absurd iowrt hiowrt
    | stale cnt ptr fd iorw => exact seek_synced hs hrange (by rw [fd]) hpos ptr (.inr ⟨cnt, .inl iorw⟩)

/-- Flushing does not move the position. -/
theorem fflush_synced (h : Synced p d last) : (fflush p).1 = 0 ∧ Synced (fflush p).2 d last := by
  by_cases hiowrt : p.iowrt = true
  · rcases fflush_eq h hiowrt with ⟨-, -, -, -, -, hflush⟩ | ⟨hbase, hioread, hflush⟩
    · rw [hflush]
      exact ⟨rfl, h⟩
    · rw [hflush]
      refine ⟨rfl, flushed_static h.static, ⟨h.range.pos, h.range.size, h.range.pos⟩,
        .writing rfl (Nat.zero_le _) hioread hiowrt hbase rfl fun hrw => ?_⟩
      have hagrees := h.agrees
      cases hagrees with
      | idle cnt ptr fd flags base => exact absurd (hiowrt.symm.trans (flags hrw).2) (by decide)
      | writing cnt le ioread iowrt base fd use => exact use hrw
      | reading n cnt le ioread iowrt => exact absurd (hiowrt.symm.trans iowrt) (by decide)
      | stale cnt ptr fd iorw ioread iowrt => exact absurd (hiowrt.symm.trans iowrt) (by decide)
  · rw [fflush, if_neg fun h => hiowrt h.1]
    exact ⟨rfl, h⟩

theorem flushed_file (h : Synced p d last) (hiowrt : p.iowrt = true) : (fflush p).2.fd.file = d.file := by
  rcases fflush_eq h hiowrt with ⟨-, -, -, hfd, -, hflush⟩ | ⟨-, -, hflush⟩
  · rw [hflush, hfd]
  · rw [hflush]

theorem unflushed_file (h : Synced p d last) (hiowrt : ¬ p.iowrt = true) : p.fd.file = d.file := by
  cases h.agrees with
  | idle cnt ptr fd flags base => rw [fd]
  | reading n cnt le ioread iowrt base file offset ahead inFile use => exact file
  | writing cnt le ioread iowrt => exact absurd iowrt hiowrt
  | stale cnt ptr fd => rw [fd]

theorem fclose_eq (h : Synced p d last) : fclose p = d.file := by
  by_cases hiowrt : p.iowrt = true
  · exact flushed_file h hiowrt
  · rw [fclose, fflush, if_neg fun hw => hiowrt hw.1]
    exact unflushed_file h hiowrt

theorem exit_eq (h : Synced p d last) : exit p = d.file := by
  rw [exit]
  by_cases hiowrt : p.iowrt = true
  · rw [if_pos hiowrt]
    exact flushed_file h hiowrt
  · rw [if_neg hiowrt]
    exact unflushed_file h hiowrt

theorem lseek_here (h : IsPos d.f_offset) : d.lseek 0 1 = (d.f_offset, d) := by
  rw [Fd.lseek, Int.add_zero, int_of_isPos h]

/-- Bytes are appended behind the descriptor's offset. -/
def AppendsBehind (p : Stream) : Prop :=
  p.fd.append = true → p.ptr > 0 → p.fd.f_offset = p.fd.file.size

/-- The position is told. -/
theorem ftell_synced (h : Synced p d last) (hbehind : p.iowrt = true → AppendsBehind p) :
    (ftell p).1 = d.ftell.1 ∧ Synced (ftell p).2 d.ftell.2 last := by
  obtain ⟨hs, hrange, hagrees⟩ := h
  have hdirect : d.ftell = (d.f_offset, d) := by
    rw [Fd.ftell, lseek_here hrange.pos, if_neg (Int.not_lt.mpr hrange.pos.1)]
  have hpos := hrange.fpos
  have htell : ftell p =
      (if p.ioread = true ∧ p.base = true ∧ p.cnt > 0 then int (p.fd.f_offset - p.cnt)
        else if p.iowrt = true ∧ p.base = true then int (p.fd.f_offset + p.ptr) else p.fd.f_offset, p) := by
    rw [ftell, lseek_here hpos]
    dsimp only
    rw [if_neg (Int.not_lt.mpr hpos.1)]
    split
    · rfl
    · split <;> rfl
  rw [htell, hdirect]
  refine ⟨?_, hs, hrange, hagrees⟩
  dsimp only
  cases hagrees with
  | idle cnt ptr fd flags base =>
      have hread : ¬ (p.ioread = true ∧ p.base = true ∧ p.cnt > 0) := fun h =>
        absurd h.2.2 (by rw [cnt]; decide)
      have hwrite : ¬ (p.iowrt = true ∧ p.base = true) := fun h =>
        absurd ((base h.1).symm.trans h.2) (by decide)
      rw [if_neg hread, if_neg hwrite, fd]
  | reading n cnt le ioread iowrt base file offset ahead inFile use =>
      have hwrite : ¬ (p.iowrt = true ∧ p.base = true) := fun h =>
        absurd (iowrt.symm.trans h.1) (by decide)
      by_cases hsome : p.cnt > 0
      · rw [if_pos ⟨ioread, base, hsome⟩, cnt, offset, Int.add_sub_cancel, int_of_isPos hrange.pos]
      · rw [if_neg fun h => hsome h.2.2, if_neg hwrite]
        omega
  | writing cnt le ioread iowrt base fd use =>
      have hread : ¬ (p.ioread = true ∧ p.base = true ∧ p.cnt > 0) := fun h =>
        absurd (ioread.symm.trans h.1) (by decide)
      rw [if_neg hread, if_pos ⟨iowrt, base⟩]
      have hoffset : p.fd.f_offset + p.ptr = d.f_offset := by
        by_cases hzero : p.ptr = 0
        · rw [if_pos hzero] at fd
          rw [fd, hzero, Int.natCast_zero, Int.add_zero]
        · rw [if_neg hzero] at fd
          have hw := hs.writable.trans (hs.writable_of_iowrt iowrt)
          rw [fd, write_eq hw hpos.1, Fd.writeOffset, bytes_length]
          dsimp only
          by_cases happend : p.fd.append = true
          · rw [if_pos happend, hbehind iowrt happend (Nat.pos_of_ne_zero hzero)]
          · rw [if_neg happend]
      rw [hoffset, int_of_isPos hrange.pos]
  | stale cnt ptr fd iorw ioread iowrt =>
      have hread : ¬ (p.ioread = true ∧ p.base = true ∧ p.cnt > 0) := fun h =>
        absurd (ioread.symm.trans h.1) (by decide)
      have hwrite : ¬ (p.iowrt = true ∧ p.base = true) := fun h =>
        absurd (iowrt.symm.trans h.1) (by decide)
      rw [if_neg hread, if_neg hwrite, fd]

end DiscoBsd.Stdio
