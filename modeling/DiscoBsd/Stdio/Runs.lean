import DiscoBsd.Lib.Steps
import DiscoBsd.Stdio.Refinement

/-!
# Runs of a stream

Any operations on an open stream, beside the same operations done directly on the descriptor that
`fopen` got. `Proper` is what C asks of the caller and what keeps an operation free of errors, `InStep`
is the condition under which the stream does the same as the file.
-/

namespace DiscoBsd.Stdio

variable {p p' : Stream} {d d' : Fd} {last : Option Use} {mem : Bool}

/-- An operation on a stream. -/
inductive Op where
  | fgetc
  | fputc (c : UInt8)
  | fputs (cs : List UInt8)
  | fseek (off : Int) (whence : Nat)
  | fgetpos
  | fsetpos (pos : Int)
  | ftell
  | fflush

/-- The operation with the stream's buffer. -/
def Op.buffered (mem : Bool) (p : Stream) : Op → Int × Stream
  | fgetc => Stdio.fgetc mem p
  | fputc c => Stdio.fputc mem c p
  | fputs cs => Stdio.fputs mem cs p
  | fseek off whence => Stdio.fseek off whence p
  | fgetpos => Stdio.fgetpos p
  | fsetpos pos => Stdio.fsetpos pos p
  | ftell => Stdio.ftell p
  | fflush => Stdio.fflush p

/-- The operation on the file. -/
def Op.direct (d : Fd) : Op → Int × Fd
  | fgetc => d.fgetc
  | fputc c => d.fputc c
  | fputs cs => d.fputs cs
  | fseek off whence => d.fseek off whence
  | fgetpos => d.ftell
  | fsetpos pos => d.fseek pos 0
  | ftell => d.ftell
  | fflush => (0, d)

/-- What the stream is used for then. -/
def Op.use (last : Option Use) : Op → Option Use
  | fgetc => some .reading
  | fputc _ => some .writing
  | fputs cs => if cs = [] then last else some .writing
  | fseek _ _ | fsetpos _ => none
  | fgetpos | ftell | fflush => last

/-- The file is open for the operation, an update stream has been sought between reading and writing,
there is memory for a buffer, and no position or size leaves its range. -/
def Op.Proper (mem : Bool) (d : Fd) (last : Option Use) : Op → Prop
  | fgetc => d.readable = true ∧ mem = true ∧ (d.writable = true → last ≠ some .writing)
  | fputc _ => d.writable = true ∧ mem = true ∧ Fits 1 d ∧ (d.readable = true → last ≠ some .reading)
  | fputs cs =>
      mem = true ∧ Fits cs.length d ∧
        (cs ≠ [] → d.writable = true ∧ (d.readable = true → last ≠ some .reading))
  | fseek off whence => 0 ≤ (d.lseek off whence).1
  | fsetpos pos => 0 ≤ (d.lseek pos 0).1
  | fgetpos | ftell | fflush => True

/-- A byte is read or written while the stream is not left by a seek, and the position is told while no
bytes wait to be appended elsewhere than behind the descriptor's offset. -/
def Op.InStep (p : Stream) : Op → Prop
  | fgetc | fputc _ => ¬ Stale p
  | fputs cs => cs ≠ [] → ¬ Stale p
  | fgetpos | ftell => p.iowrt = true → AppendsBehind p
  | fseek _ _ | fsetpos _ | fflush => True

/-- An operation gives the same in both, and leaves them in the same place. -/
theorem op_synced (op : Op) (h : Synced p d last) (hproper : op.Proper mem d last)
    (hinstep : op.InStep p) :
    (op.buffered mem p).1 = (op.direct d).1 ∧
      Synced (op.buffered mem p).2 (op.direct d).2 (op.use last) := by
  cases op with
  | fgetc =>
      obtain ⟨hr, hmem, huse⟩ := hproper
      exact fgetc_synced h hr hmem hinstep huse
  | fputc c =>
      obtain ⟨hw, hmem, hfits, huse⟩ := hproper
      obtain ⟨hresult, -, hsynced⟩ := fputc_synced c h hw hmem hfits hinstep huse
      exact ⟨hresult, hsynced⟩
  | fputs cs =>
      obtain ⟨hmem, hfits, hsome⟩ := hproper
      exact fputs_synced cs h (fun hne => (hsome hne).1) hmem hfits hinstep fun hne => (hsome hne).2
  | fseek off whence => exact fseek_synced h hproper
  | fsetpos pos => exact fseek_synced h hproper
  | fgetpos => exact ftell_synced h hinstep
  | ftell => exact ftell_synced h hinstep
  | fflush => exact fflush_synced h

/-! ## Opening -/

/-- The modes of `fopen`. -/
def modes : List (List Char) := [['r'], ['w'], ['a'], ['r', '+'], ['w', '+']]

/-- A stream that has just been opened is where its descriptor is. -/
theorem fopen_synced {mode : List Char} {existing : Option File} {slot : Bool} {buffer : Nat → UInt8}
    (hmode : mode ∈ modes) (hsize : ∀ file, existing = some file → file.size < 2147483648)
    (hopen : fopen mode existing slot buffer = some p) : Synced p p.fd none := by
  have hempty : (File.ofList []).size < 2147483648 := by decide
  have hzero : IsPos 0 := ⟨by decide, by decide⟩
  have hgetD : (existing.getD (File.ofList [])).size < 2147483648 := by
    cases existing with
    | none => exact hempty
    | some file => exact hsize file rfl
  have hboth : ∀ ioread iowrt rw : Bool, (ioread && iowrt) = false →
      rw = ((ioread || rw) && (iowrt || rw)) := by decide
  have hplain : ∀ use rw : Bool, rw = false → (use && !rw) = (use || rw) := by decide
  have heither : ∀ ioread iowrt rw : Bool, ioread = true ∨ iowrt = true →
      (ioread || rw) = true ∨ (iowrt || rw) = true := by decide
  have hnew : ∀ (ioread iowrt append rw : Bool) (file : File), file.size < 2147483648 →
      (ioread = true ∨ iowrt = true) → (ioread && iowrt) = false →
      (append = true → ioread = false ∧ rw = false) →
      Synced
        { cnt := 0, ptr := 0, base := false, bufsiz := 0, ioread := ioread && !rw,
          iowrt := iowrt && !rw, ioeof := false, ioerr := false, iorw := rw, buffer := buffer,
          slot := slot,
          fd := { file := file, f_offset := 0, readable := ioread || rw, writable := iowrt || rw,
                  append := append } }
        { file := file, f_offset := 0, readable := ioread || rw, writable := iowrt || rw,
          append := append } none := by
    intro ioread iowrt append rw file hfile hsome hone happend
    refine ⟨⟨rfl, rfl, rfl, hboth ioread iowrt rw hone, hplain ioread rw, hplain iowrt rw,
      heither ioread iowrt rw hsome, fun h => ?_, fun h => absurd h Bool.false_ne_true⟩,
      ⟨hzero, hfile, hzero⟩, .idle rfl rfl rfl (fun hrw => ?_) fun _ => rfl⟩
    · obtain ⟨hread, hrw⟩ := happend h
      rw [hread, hrw]
      rfl
    · dsimp only at hrw
      rw [hrw, Bool.not_true, Bool.and_false, Bool.and_false]
      exact ⟨rfl, rfl⟩
  simp only [modes, List.mem_cons, List.not_mem_nil, or_false] at hmode
  rcases hmode with rfl | rfl | rfl | rfl | rfl
  · obtain ⟨file, hfile, rfl⟩ := Option.map_eq_some_iff.mp hopen
    exact hnew true false false false file (hsize file hfile) (.inl rfl) rfl (by decide)
  · obtain rfl := Option.some.inj hopen
    exact hnew false true false false _ hempty (.inr rfl) rfl (by decide)
  · obtain rfl := Option.some.inj hopen
    exact hnew false true true false _ hgetD (.inr rfl) rfl (by decide)
  · obtain ⟨file, hfile, rfl⟩ := Option.map_eq_some_iff.mp hopen
    exact hnew true false false true file (hsize file hfile) (.inl rfl) rfl (by decide)
  · obtain rfl := Option.some.inj hopen
    exact hnew false true false true _ hempty (.inr rfl) rfl (by decide)

/-! ## Whole runs -/

/-- An operation with what it gives on the stream and on the file. -/
structure Done where
  mem : Bool
  op : Op
  buffered : Int
  direct : Int

/-- A stream, its descriptor without a buffer, and what the stream was last used for. -/
structure Pair where
  stream : Stream
  fd : Fd
  last : Option Use

/-- An operation is done on both. -/
def PairStep (s : Pair) (done : Done) (s' : Pair) : Prop :=
  done.op.Proper done.mem s.fd s.last ∧ done.op.InStep s.stream ∧
    done.buffered = (done.op.buffered done.mem s.stream).1 ∧ done.direct = (done.op.direct s.fd).1 ∧
    s' = ⟨(done.op.buffered done.mem s.stream).2, (done.op.direct s.fd).2, done.op.use s.last⟩

/-- On a stream of any mode, in every run of operations that are in step, all results are those of the
unbuffered file, and so is the file that `fclose` or `exit` leaves. -/
theorem stdio_refines {mode : List Char} {existing : Option File} {slot : Bool} {buffer : Nat → UInt8}
    {stream : Stream} (hmode : mode ∈ modes)
    (hsize : ∀ file, existing = some file → file.size < 2147483648)
    (hopen : fopen mode existing slot buffer = some stream) {run : List Done} {final : Pair}
    (hrun : Lib.Steps PairStep ⟨stream, stream.fd, none⟩ run final) :
    (∀ done ∈ run, done.buffered = done.direct) ∧
      (fclose final.stream).contents = final.fd.file.contents ∧
        (exit final.stream).contents = final.fd.file.contents := by
  have hall : ∀ {s s' : Pair} {run : List Done}, Lib.Steps PairStep s run s' →
      Synced s.stream s.fd s.last →
      (∀ done ∈ run, done.buffered = done.direct) ∧ Synced s'.stream s'.fd s'.last := by
    intro s s' run hrun
    induction hrun with
    | refl s => exact fun h => ⟨fun done hdone => absurd hdone List.not_mem_nil, h⟩
    | @cons s done s₁ run s' hstep _ ih =>
        intro h
        obtain ⟨hproper, hinstep, hbuffered, hdirect, rfl⟩ := hstep
        obtain ⟨hsame, hsynced⟩ := op_synced done.op h hproper hinstep
        obtain ⟨hrest, hfinal⟩ := ih hsynced
        refine ⟨fun other hother => ?_, hfinal⟩
        rcases List.mem_cons.mp hother with rfl | hlater
        · rw [hbuffered, hdirect, hsame]
        · exact hrest other hlater
  obtain ⟨hsame, hfinal⟩ := hall hrun (fopen_synced hmode hsize hopen)
  exact ⟨hsame, congrArg File.contents (fclose_eq hfinal), congrArg File.contents (exit_eq hfinal)⟩

/-- A file is read, sought and read again. -/
theorem stdio_refines_read :
    ∃ stream final, fopen ['r'] (some (File.ofList [97, 98, 99])) false (fun _ => 0) = some stream ∧
      Lib.Steps PairStep ⟨stream, stream.fd, none⟩
        [⟨true, .fgetc, 97, 97⟩, ⟨true, .fseek 2 0, 0, 0⟩, ⟨true, .fgetc, 99, 99⟩,
          ⟨true, .ftell, 3, 3⟩] final ∧
      (fclose final.stream).contents = final.fd.file.contents := by
  have hrun : ∃ stream final,
      fopen ['r'] (some (File.ofList [97, 98, 99])) false (fun _ => 0) = some stream ∧
      Lib.Steps PairStep ⟨stream, stream.fd, none⟩
        [⟨true, .fgetc, 97, 97⟩, ⟨true, .fseek 2 0, 0, 0⟩, ⟨true, .fgetc, 99, 99⟩,
          ⟨true, .ftell, 3, 3⟩] final := by
    refine ⟨_, _, rfl, .cons ⟨⟨rfl, rfl, fun hwrite => absurd hwrite (by decide)⟩,
      fun hstale => absurd hstale.1 (by decide), by decide +kernel, by decide +kernel, rfl⟩
      (.cons ⟨?_, trivial, by decide +kernel, by decide +kernel, rfl⟩
        (.cons ⟨⟨by decide +kernel, rfl, fun hwrite => absurd hwrite (by decide +kernel)⟩,
          fun hstale => absurd hstale.1 (by decide +kernel), by decide +kernel, by decide +kernel, rfl⟩
          (.cons ⟨trivial, fun hwrite => absurd hwrite (by decide +kernel), by decide +kernel,
            by decide +kernel, rfl⟩ (.refl _))))⟩
    show (0 : Int) ≤ _
    decide +kernel
  obtain ⟨stream, final, hopen, hrun⟩ := hrun
  have hrefines := stdio_refines (by decide) (fun _ hfile => by cases hfile; decide) hopen hrun
  exact ⟨stream, final, hopen, hrun, hrefines.2.1⟩

/-- An update stream is written, sought and read: the byte just written comes instead of the file's
first. A stream that appends tells the position of its waiting byte as 1, where the file has 3. -/
theorem stdio_differs :
    ∃ update append, fopen ['r', '+'] (some (File.ofList [97, 98])) false (fun _ => 0) = some update ∧
      fopen ['a'] (some (File.ofList [97, 98])) false (fun _ => 0) = some append ∧
      (fgetc true (fseek 0 0 (fputc true 120 (fseek 1 0 update).2).2).2).1 = 120 ∧
      (((((update.fd.fseek 1 0).2.fputc 120).2.fseek 0 0).2).fgetc).1 = 97 ∧
      (ftell (fputc true 120 append).2).1 = 1 ∧ ((append.fd.fputc 120).2.ftell).1 = 3 :=
  ⟨_, _, rfl, rfl, by decide +kernel, by decide +kernel, by decide +kernel, by decide +kernel⟩

end DiscoBsd.Stdio
