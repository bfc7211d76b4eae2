import DiskAnn.Disk.Storage

/-! # Cached files against plain ones

A session with a cached reader answers as one that reads the file byte after byte, and what a cached
writer leaves behind is what the same calls write without a cache. -/

namespace DiskAnn.Disk

open List

namespace CachedReader

/-- What the calls return, one after the other; a call that fails leaves the reader as it was. -/
def answers (r : CachedReader) : List ℕ → List (Except Fault (List UInt8))
  | [] => []
  | count :: counts =>
    match r.read count with
    | .ok (bytes, r') => .ok bytes :: r'.answers counts
    | .error fault => .error fault :: r.answers counts

end CachedReader

/-- The plain reader: the bytes that follow if there are as many, and otherwise nothing, at the same
position as before. -/
def sequentialReads (content : List UInt8) (pos : ℕ) : List ℕ → List (Option (List UInt8))
  | [] => []
  | count :: counts =>
    if pos + count ≤ content.length then
      some ((content.drop pos).take count) :: sequentialReads content (pos + count) counts
    else none :: sequentialReads content pos counts

namespace CachedReader

theorem read_beyond_end {r : CachedReader} {rest : List UInt8} (serves : r.Serves rest) (count : ℕ)
    (beyond : rest.length < count) : ∃ message, r.read count = .error (.error .indexError message) := by
  have cached : (r.cacheBuf.drop r.curOff).length = r.cacheSize - r.curOff := by
    rw [length_drop, serves.buffer]
  have left : r.reader.rest.length = r.size - r.reader.pos := by
    rw [FileReader.rest, length_drop, serves.size]
  rw [← serves.rest, length_append] at beyond
  rw [read, if_neg (by omega), if_pos (by omega)]
  exact ⟨_, rfl⟩

theorem read_within {r : CachedReader} {rest : List UInt8} (serves : r.Serves rest) (count : ℕ)
    (within : count ≤ rest.length) :
    ∃ r', r.read count = .ok (rest.take count, r') ∧ r'.Serves (rest.drop count) := by
  rw [← take_append_drop count rest] at serves
  obtain ⟨r', got, serves'⟩ := read_serves serves
  rw [length_take, min_eq_left within] at got
  exact ⟨r', got, serves'⟩

-- along the calls: the reader serves what stands behind the position of the plain one
theorem answers_eq_sequential {content : List UInt8} (counts : List ℕ) {r : CachedReader} {pos : ℕ}
    (inside : pos ≤ content.length) (serves : r.Serves (content.drop pos)) :
    (r.answers counts).map Except.toOption = sequentialReads content pos counts ∧
      ∀ fault, .error fault ∈ r.answers counts → ∃ message, fault = .error .indexError message := by
  induction counts generalizing r pos with
  | nil => exact ⟨rfl, fun _ mem => absurd mem not_mem_nil⟩
  | cons count counts ih =>
    by_cases within : pos + count ≤ content.length
    · obtain ⟨r', got, serves'⟩ := read_within serves count (by rw [length_drop]; omega)
      rw [drop_drop] at serves'
      obtain ⟨same, faults⟩ := ih within serves'
      simp only [answers, got, sequentialReads, if_pos within, map_cons, same, mem_cons,
        reduceCtorEq, false_or]
      exact ⟨rfl, faults⟩
    · obtain ⟨message, failed⟩ := read_beyond_end serves count (by rw [length_drop]; omega)
      obtain ⟨same, faults⟩ := ih inside serves
      simp only [answers, failed, sequentialReads, if_neg within, map_cons, same, mem_cons,
        Except.error.injEq]
      refine ⟨rfl, fun fault => Or.rec ?_ (faults fault)⟩
      rintro rfl
      exact ⟨message, rfl⟩

end CachedReader

/-- The calls that change the file of a writer. -/
inductive WriterCall
  | write (data : List UInt8)
  | reset
  | flush
  deriving DecidableEq

def CachedWriter.apply (w : CachedWriter) : WriterCall → CachedWriter
  | .write data => w.write data
  | .reset => w.reset
  | .flush => w.flush

/-- The same call without a cache. -/
def FileWriter.apply (w : FileWriter) : WriterCall → FileWriter
  | .write data => w.writeAll data
  | .reset => w.seek 0
  | .flush => w

namespace CachedWriter

theorem apply_holds {w : CachedWriter} {file : FileWriter} (holds : w.Holds file.bytes file.pos)
    (call : WriterCall) : (w.apply call).Holds (file.apply call).bytes (file.apply call).pos := by
  cases call with
  | write data => exact write_holds holds data
  | reset => exact reset_holds holds
  | flush => exact flush_holds holds

theorem foldl_apply_holds {w : CachedWriter} {file : FileWriter} (calls : List WriterCall)
    (holds : w.Holds file.bytes file.pos) : (calls.foldl apply w).Holds
      (calls.foldl FileWriter.apply file).bytes (calls.foldl FileWriter.apply file).pos := by
  induction calls generalizing w file with
  | nil => exact holds
  | cons call calls ih => exact ih (apply_holds holds call)

end CachedWriter

/-- Reading: the same bytes as from the plain file, an error exactly for what reaches beyond its end and
without losing the position. Writing: after `flush` the same file, at the same position. -/
theorem cached_files_transparent (content : List UInt8) (readCache : ℕ) (counts : List ℕ) (file : FileWriter)
    (within : file.pos ≤ file.bytes.length) (writeCache : ℕ) (positive : 1 ≤ writeCache)
    (calls : List WriterCall) :
    (∃ r, CachedReader.new content readCache = .ok r ∧
      (r.answers counts).map Except.toOption = sequentialReads content 0 counts ∧
      ∀ fault, .error fault ∈ r.answers counts → ∃ message, fault = .error .indexError message) ∧
    ∃ w, CachedWriter.new writeCache file = .ok w ∧
      (calls.foldl CachedWriter.apply w).flush.writer = calls.foldl FileWriter.apply file := by
  constructor
  · obtain ⟨r, opened, serves⟩ := CachedReader.new_serves content readCache
    exact ⟨r, opened, CachedReader.answers_eq_sequential counts (Nat.zero_le _) serves⟩
  · obtain ⟨w, created, holds⟩ := CachedWriter.new_holds_file positive within
    exact ⟨w, created, (CachedWriter.foldl_apply_holds calls holds).writer_flush⟩

/-- A count that is patched into what was written before. -/
theorem cached_files_transparent_patched :
    ∃ w, CachedWriter.new 3 .createForWrite = .ok w ∧
      ([.write [0], .write [7, 8, 9], .reset, .write [3]].foldl CachedWriter.apply w).flush.writer =
        ⟨[3, 7, 8, 9], 1⟩ :=
  (cached_files_transparent [1, 2, 3] 2 [1, 2, 1, 0] .createForWrite (by decide) 3 (by decide)
    [.write [0], .write [7, 8, 9], .reset, .write [3]]).2

end DiskAnn.Disk
