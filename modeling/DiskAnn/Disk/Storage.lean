import DiskAnn.Data.Bytes

/-! # Files read and written in sequence

The plain and the cached readers and writers through which an index is built. The storage itself does
not fail: what can go wrong is a read beyond the end of a file. -/

namespace DiskAnn.Disk

open List Nat

inductive ErrorKind
  | indexConfigError (parameter : String)
  | indexError
  | serdeError
  | diskIoAlignmentError
  | unexpectedEof
  | other
  deriving DecidableEq

/-- How a call ends if it does not return a value. -/
inductive Fault
  | panic
  | error (kind : ErrorKind) (message : String)
  deriving DecidableEq

def wordSize : ℕ := 2 ^ 64

/-- What the processor keeps of a `u64` or `usize` result. -/
def u64 (value : ℕ) : ℕ := value % wordSize

/-- An open file, read from `pos` on. -/
structure FileReader where
  bytes : List UInt8
  pos : ℕ
  deriving DecidableEq

namespace FileReader

def openReader (bytes : List UInt8) : FileReader := ⟨bytes, 0⟩

/-- What has not been read yet. -/
def rest (r : FileReader) : List UInt8 := r.bytes.drop r.pos

def readExact (r : FileReader) (count : ℕ) : Except Fault (List UInt8 × FileReader) :=
  if count ≤ r.rest.length then .ok (r.rest.take count, { r with pos := r.pos + count })
  else .error (.error .unexpectedEof "failed to fill whole buffer")

def readLe (r : FileReader) (width : ℕ) : Except Fault (ℕ × FileReader) := do
  let (bytes, r) ← r.readExact width
  pure (Bytes.ofLe bytes, r)

theorem readExact_of_rest {r : FileReader} {data rest : List UInt8} (left : r.rest = data ++ rest) :
    r.readExact data.length = .ok (data, { r with pos := r.pos + data.length }) ∧
      ({ r with pos := r.pos + data.length } : FileReader).rest = rest := by
  constructor
  · rw [readExact, left, if_pos (by simp), take_left]
  · have later : ({ r with pos := r.pos + data.length } : FileReader).rest = r.rest.drop data.length :=
      (drop_drop ..).symm
    rw [later, left, drop_left]

theorem readLe_of_rest {r : FileReader} {width value : ℕ} {rest : List UInt8}
    (left : r.rest = Bytes.toLe width value ++ rest) (fits : value < 256 ^ width) :
    ∃ r', r.readLe width = .ok (value, r') ∧ r'.rest = rest := by
  obtain ⟨read, later⟩ := readExact_of_rest left
  rw [Bytes.length_toLe] at read later
  refine ⟨_, ?_, later⟩
  rw [readLe, read]
  exact congrArg (fun number => Except.ok (number, _)) (Bytes.ofLe_toLe fits)

end FileReader

/-- A reader that fetches `cacheSize` bytes ahead. -/
structure CachedReader where
  reader : FileReader
  cacheSize : ℕ
  cacheBuf : List UInt8
  curOff : ℕ
  size : ℕ
  deriving DecidableEq

namespace CachedReader

def new (content : List UInt8) (cacheSize : ℕ) : Except Fault CachedReader := do
  let size := content.length
  let cacheSize := min cacheSize size
  let (cacheBuf, reader) ← (FileReader.openReader content).readExact cacheSize
  pure { reader, cacheSize, cacheBuf, curOff := 0, size }

/-- An error leaves the reader as it was: the length is checked before anything is read. -/
def read (r : CachedReader) (count : ℕ) : Except Fault (List UInt8 × CachedReader) :=
  if count ≤ r.cacheSize - r.curOff then
    .ok ((r.cacheBuf.drop r.curOff).take count, { r with curOff := r.curOff + count })
  else
    let cachedBytes := r.cacheSize - r.curOff
    if r.size - r.reader.pos < count - cachedBytes then
      .error (.error .indexError
        s!"Reading beyond end of file, n_bytes: {count} cached_bytes: {cachedBytes} fsize: {r.size} current pos: {r.reader.pos}")
    else do
      let (bytes, reader) ← r.reader.readExact (count - cachedBytes)
      let bytes := r.cacheBuf.drop r.curOff ++ bytes
      if r.cacheSize ≤ r.size - reader.pos then
        let (cacheBuf, reader) ← reader.readExact r.cacheSize
        pure (bytes, { r with reader, cacheBuf, curOff := 0 })
      else
        -- less than a cache is left: everything else comes directly from the file
        pure (bytes, { r with reader, curOff := r.cacheSize })

def readU32 (r : CachedReader) : Except Fault (ℕ × CachedReader) := do
  let (bytes, r) ← r.read 4
  pure (Bytes.ofLe bytes, r)

/-- The reader is about to read `rest`, up to the end of the file. -/
structure Serves (r : CachedReader) (rest : List UInt8) : Prop where
  buffer : r.cacheBuf.length = r.cacheSize
  offset : r.curOff ≤ r.cacheSize
  size : r.size = r.reader.bytes.length
  within : r.reader.pos ≤ r.reader.bytes.length
  rest : r.cacheBuf.drop r.curOff ++ r.reader.rest = rest

open FileReader

theorem new_serves (content : List UInt8) (cacheSize : ℕ) :
    ∃ r, new content cacheSize = .ok r ∧ r.Serves content := by
  have left : (openReader content).rest =
      content.take (min cacheSize content.length) ++ content.drop (min cacheSize content.length) :=
    (take_append_drop ..).symm
  have length : (content.take (min cacheSize content.length)).length = min cacheSize content.length := by
    rw [length_take, min_eq_left (min_le_right ..)]
  obtain ⟨read, rest⟩ := readExact_of_rest left
  rw [length] at read rest
  refine ⟨_, by rw [new, read]; rfl, ⟨length, zero_le _, rfl, ?_, ?_⟩⟩
  · change 0 + min cacheSize content.length ≤ content.length
    omega
  · rw [drop_zero, rest, take_append_drop]

theorem read_serves {r : CachedReader} {data rest : List UInt8} (serves : r.Serves (data ++ rest)) :
    ∃ r', r.read data.length = .ok (data, r') ∧ r'.Serves rest := by
  have cached : (r.cacheBuf.drop r.curOff).length = r.cacheSize - r.curOff := by
    rw [length_drop, serves.buffer]
  by_cases inside : data.length ≤ r.cacheSize - r.curOff
  · -- the cache holds all of it
    have first : (r.cacheBuf.drop r.curOff).take data.length = data := by
      have := congrArg (take data.length) serves.rest
      rwa [take_left, take_append_of_le_length (cached ▸ inside)] at this
    have second : r.cacheBuf.drop (r.curOff + data.length) ++ r.reader.rest = rest := by
      have := congrArg (drop data.length) serves.rest
      rwa [drop_left, drop_append_of_le_length (cached ▸ inside), drop_drop] at this
    refine ⟨{ r with curOff := r.curOff + data.length }, ?_, serves.buffer, ?_, serves.size, serves.within, second⟩
    · rw [read, if_pos inside, first]
    · have := serves.offset
      change r.curOff + data.length ≤ r.cacheSize
      omega
  · -- the rest of it comes from the file
    obtain ⟨later, rfl⟩ : ∃ later, data = r.cacheBuf.drop r.curOff ++ later := by
      refine ⟨data.drop (r.cacheSize - r.curOff), ?_⟩
      have := congrArg (List.take (r.cacheSize - r.curOff)) serves.rest
      rw [← cached, take_left, take_append_of_le_length (by omega)] at this
      rw [← cached]
      nth_rewrite 1 [this]
      exact (take_append_drop ..).symm
    have left : r.reader.rest = later ++ rest := by
      have := serves.rest
      rwa [append_assoc, append_cancel_left_eq] at this
    have count : (r.cacheBuf.drop r.curOff ++ later).length - (r.cacheSize - r.curOff) = later.length := by
      rw [length_append, cached, Nat.add_sub_cancel_left]
    have remaining : r.size - r.reader.pos = later.length + rest.length := by
      rw [serves.size, ← length_append, ← left, FileReader.rest, length_drop]
    obtain ⟨got, after⟩ := readExact_of_rest left
    have within : r.reader.pos + later.length ≤ r.reader.bytes.length := by
      have := serves.size
      omega
    simp only [read, if_neg inside, count, remaining, got,
      if_neg (not_lt.mpr (le_add_right later.length rest.length))]
    change ∃ r', (if r.cacheSize ≤ r.size - (r.reader.pos + later.length) then _ else _) = _ ∧ _
    have size : r.size - (r.reader.pos + later.length) = rest.length := by omega
    rw [size]
    by_cases refill : r.cacheSize ≤ rest.length
    · have split := after.trans (take_append_drop r.cacheSize rest).symm
      have length : (rest.take r.cacheSize).length = r.cacheSize := by
        rw [length_take, min_eq_left refill]
      obtain ⟨filled, beyond⟩ := readExact_of_rest split
      rw [length] at filled beyond
      rw [if_pos refill, filled]
      refine ⟨_, rfl, length, zero_le _, serves.size, ?_, ?_⟩
      · change r.reader.pos + later.length + r.cacheSize ≤ r.reader.bytes.length
        have := serves.size
        omega
      · rw [drop_zero, beyond, take_append_drop]
    · rw [if_neg refill]
      refine ⟨_, rfl, serves.buffer, le_rfl, serves.size, within, ?_⟩
      rw [← serves.buffer, drop_length, nil_append, after]

theorem readU32_serves {r : CachedReader} {value : ℕ} {rest : List UInt8}
    (serves : r.Serves (Bytes.toLe 4 value ++ rest)) (fits : value < 2 ^ 32) :
    ∃ r', r.readU32 = .ok (value, r') ∧ r'.Serves rest := by
  obtain ⟨r', got, serves'⟩ := read_serves serves
  rw [Bytes.length_toLe] at got
  refine ⟨r', ?_, serves'⟩
  rw [readU32, got]
  exact congrArg (fun number => Except.ok (number, r')) (Bytes.ofLe_toLe fits)

end CachedReader

/-- An open file, written from `pos` on. -/
structure FileWriter where
  bytes : List UInt8
  pos : ℕ
  deriving DecidableEq

namespace FileWriter

/-- A new file. -/
def createForWrite : FileWriter := ⟨[], 0⟩

/-- An existing file, whose contents are kept. -/
def openWriter (bytes : List UInt8) : FileWriter := ⟨bytes, 0⟩

def writeAll (w : FileWriter) (data : List UInt8) : FileWriter :=
  ⟨w.bytes.overwrite w.pos data, w.pos + data.length⟩

def seek (w : FileWriter) (pos : ℕ) : FileWriter := { w with pos }

end FileWriter

/-- A writer that collects up to `cacheSize` bytes before it writes them. -/
structure CachedWriter where
  writer : FileWriter
  cacheSize : ℕ
  cacheBuf : List UInt8
  curOff : ℕ
  fsize : ℕ
  deriving DecidableEq

namespace CachedWriter

def new (cacheSize : ℕ) (writer : FileWriter) : Except Fault CachedWriter :=
  if cacheSize = 0 then .error (.error .other "Cache size must be greater than 0")
  else .ok { writer, cacheSize, cacheBuf := replicate cacheSize 0, curOff := 0, fsize := 0 }

def flushCache (w : CachedWriter) : CachedWriter :=
  { w with
    writer := w.writer.writeAll (w.cacheBuf.take w.curOff)
    fsize := w.fsize + w.curOff
    cacheBuf := replicate w.cacheSize 0
    curOff := 0 }

def flush (w : CachedWriter) : CachedWriter := if 0 < w.curOff then w.flushCache else w

def write (w : CachedWriter) (data : List UInt8) : CachedWriter :=
  if data.length ≤ w.cacheSize - w.curOff then
    { w with cacheBuf := w.cacheBuf.overwrite w.curOff data, curOff := w.curOff + data.length }
  else
    { w with
      writer := (w.writer.writeAll (w.cacheBuf.take w.curOff)).writeAll data
      fsize := w.fsize + w.curOff + data.length
      cacheBuf := replicate w.cacheSize 0
      curOff := 0 }

def reset (w : CachedWriter) : CachedWriter :=
  let w := w.flushCache
  { w with writer := w.writer.seek 0 }

/-- The file that is left when the writer is dropped. -/
def drop (w : CachedWriter) : List UInt8 := w.flush.writer.bytes

/-- With what waits in the cache the file holds `content`, and the next byte goes to `pos`. -/
structure Holds (w : CachedWriter) (content : List UInt8) (pos : ℕ) : Prop where
  buffer : w.cacheBuf.length = w.cacheSize
  offset : w.curOff ≤ w.cacheSize
  within : w.writer.pos ≤ w.writer.bytes.length
  content : w.writer.bytes.overwrite w.writer.pos (w.cacheBuf.take w.curOff) = content
  pos : w.writer.pos + w.curOff = pos

theorem new_holds_file {cacheSize : ℕ} (pos : 0 < cacheSize) {file : FileWriter}
    (within : file.pos ≤ file.bytes.length) :
    ∃ w, new cacheSize file = .ok w ∧ w.Holds file.bytes file.pos :=
  ⟨_, if_neg pos.ne', length_replicate, zero_le _, within, overwrite_nil .., rfl⟩

theorem new_holds {cacheSize : ℕ} (pos : 0 < cacheSize) :
    ∃ w, new cacheSize .createForWrite = .ok w ∧ w.Holds [] 0 :=
  new_holds_file pos le_rfl

variable {w : CachedWriter} {content : List UInt8} {pos : ℕ} (holds : w.Holds content pos)
include holds

theorem Holds.length_waiting :
    (w.cacheBuf.take w.curOff).length = w.curOff := by
  rw [length_take, holds.buffer, min_eq_left holds.offset]

theorem Holds.pos_le : pos ≤ content.length := by
  have := le_length_overwrite holds.within (w.cacheBuf.take w.curOff)
  rwa [holds.length_waiting, holds.content, holds.pos] at this

theorem Holds.writer_flushCache :
    w.flushCache.writer = ⟨content, pos⟩ := by
  change FileWriter.mk _ _ = _
  rw [holds.content, holds.length_waiting, holds.pos]

omit holds in
/-- Nothing waits, and the file is at `pos`. -/
theorem holds_of_writer (buffer : w.cacheBuf.length = w.cacheSize) (empty : w.curOff = 0)
    (written : w.writer = ⟨content, pos⟩) (within : pos ≤ content.length) : w.Holds content pos := by
  refine ⟨buffer, empty ▸ zero_le _, ?_, ?_, ?_⟩
  · rwa [written]
  · rw [empty, take_zero, overwrite_nil, written]
  · rw [empty, written]
    rfl

theorem flush_holds : w.flush.Holds content pos := by
  by_cases waiting : 0 < w.curOff
  · rw [flush, if_pos waiting]
    exact holds_of_writer length_replicate rfl holds.writer_flushCache holds.pos_le
  · rwa [flush, if_neg waiting]

theorem write_holds (data : List UInt8) :
    (w.write data).Holds (content.overwrite pos data) (pos + data.length) := by
  have waiting := holds.length_waiting
  have continued : content.overwrite pos data =
      w.writer.bytes.overwrite w.writer.pos (w.cacheBuf.take w.curOff ++ data) := by
    rw [← overwrite_overwrite holds.within, waiting, holds.content, holds.pos]
  by_cases room : data.length ≤ w.cacheSize - w.curOff
  · have offset := holds.offset
    have within : w.curOff + data.length ≤ w.cacheBuf.length := by
      rw [holds.buffer]
      omega
    rw [write, if_pos room]
    refine ⟨?_, ?_, holds.within, ?_, ?_⟩
    · exact (length_overwrite within).trans holds.buffer
    · change w.curOff + data.length ≤ w.cacheSize
      omega
    · have waiting' : (w.cacheBuf.overwrite w.curOff data).take (w.curOff + data.length) =
          w.cacheBuf.take w.curOff ++ data :=
        take_left' (by rw [length_append, waiting])
      exact (congrArg _ waiting').trans continued.symm
    · change w.writer.pos + (w.curOff + data.length) = pos + data.length
      rw [← holds.pos, add_assoc]
  · rw [write, if_neg room]
    refine holds_of_writer length_replicate rfl ?_ (le_length_overwrite holds.pos_le data)
    change (w.flushCache.writer.writeAll data) = _
    rw [holds.writer_flushCache]
    rfl

omit holds in
/-- What is written at the end is appended. -/
theorem write_appends (holds : w.Holds content content.length) (data : List UInt8) :
    (w.write data).Holds (content ++ data) (content ++ data).length := by
  have := write_holds holds data
  rwa [overwrite_length, ← length_append] at this

theorem reset_holds : w.reset.Holds content 0 := by
  refine holds_of_writer length_replicate rfl ?_ (zero_le _)
  change w.flushCache.writer.seek 0 = _
  rw [holds.writer_flushCache]
  rfl

theorem Holds.writer_flush : w.flush.writer = ⟨content, pos⟩ := by
  by_cases waiting : 0 < w.curOff
  · rw [flush, if_pos waiting]
    exact holds.writer_flushCache
  · have empty := Nat.eq_zero_of_not_pos waiting
    have content := holds.content
    have pos := holds.pos
    rw [empty, take_zero, overwrite_nil] at content
    rw [empty, add_zero] at pos
    rw [flush, if_neg waiting, ← content, ← pos]

theorem drop_eq_content : w.drop = content :=
  congrArg FileWriter.bytes holds.writer_flush

end CachedWriter

/-- `READ_WRITE_BLOCK_SIZE`, the size of every cache. -/
def readWriteBlockSize : ℕ := 64 * 1024 * 1024

/-! ## Files of graphs -/

/-- One vertex in the file of a graph. -/
def adjacencyRecord (neighbors : List ℕ) : List UInt8 :=
  Bytes.toLe 4 neighbors.length ++ Bytes.ofWords neighbors

/-- What the file of a graph starts with. -/
def vamanaHeader (size maxDegree medoid frozen : ℕ) : List UInt8 :=
  Bytes.toLe 8 size ++ (Bytes.toLe 4 maxDegree ++ (Bytes.toLe 4 medoid ++ Bytes.toLe 8 frozen))

@[simp] theorem length_vamanaHeader (size maxDegree medoid frozen : ℕ) :
    (vamanaHeader size maxDegree medoid frozen).length = 24 := by
  simp [vamanaHeader]

end DiskAnn.Disk
