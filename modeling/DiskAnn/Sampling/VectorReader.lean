import Mathlib

/-! # Reading sampled vectors

`SampleVectorReader`: vectors are reached by seeks relative to a position that the reader keeps for itself.
The buffered and the direct reader have the same position in the file. A request is an index together
with whether the callback accepts the vector.
-/

namespace DiskAnn.Sampling

open List

/-- A file of vectors whose elements take `size` bytes. -/
structure VectorFile (size : ℕ) where
  npts : ℕ
  dim : ℕ
  header : List (BitVec 8)
  data : List (BitVec 8)
  header_length : header.length = 8
  data_length : data.length = npts * (dim * size)

namespace VectorFile

variable {size : ℕ} (f : VectorFile size)

def vectorLen : ℕ := f.dim * size

def bytes : List (BitVec 8) := f.header ++ f.data

/-- The vector that is stored at an index. -/
def vector (idx : ℕ) : List (BitVec 8) := (f.data.drop (idx * f.vectorLen)).take f.vectorLen

end VectorFile

/-- The reader, with the vectors that the callback was given. -/
structure SampleVectorReader where
  position : ℕ
  curPos : ℕ
  given : List (ℕ × List (BitVec 8))

inductive ReadError
  | outOfBounds (idx npts : ℕ)
  | seek
  | read
  | process
  deriving DecidableEq, Repr

namespace SampleVectorReader

variable {size : ℕ} (f : VectorFile size)

/-- The reader is behind the header, whose size `new` has checked. -/
def new : SampleVectorReader := ⟨8, 0, []⟩

/-- One round of the loop. -/
def readVector (s : SampleVectorReader) (request : ℕ × Bool) : SampleVectorReader × Except ReadError Unit :=
  let idx := request.1
  if f.npts ≤ idx then (s, .error (.outOfBounds idx f.npts))
  else
    let target : ℤ := s.position + ((idx : ℤ) - s.curPos) * f.vectorLen
    if target < 0 then (s, .error .seek)
    else
      let start := target.toNat
      if f.bytes.length < start + f.vectorLen then ({ s with position := start }, .error .read)
      else
        let vectorBuf := (f.bytes.drop start).take f.vectorLen
        let s := { s with position := start + f.vectorLen, given := s.given ++ [(idx, vectorBuf)] }
        if request.2 then ({ s with curPos := idx + 1 }, .ok ()) else (s, .error .process)

def readVectors (s : SampleVectorReader) : List (ℕ × Bool) → SampleVectorReader × Except ReadError Unit
  | [] => (s, .ok ())
  | request :: rest =>
      match readVector f s request with
      | (s, .ok ()) => readVectors s rest
      | (s, .error e) => (s, .error e)

/-- One call after the other. -/
def run (calls : List (List (ℕ × Bool))) : SampleVectorReader :=
  calls.foldl (fun s call => (readVectors f s call).1) new

/-- The callback accepts the vector, or the reader says that it is behind it already, or vectors are empty. -/
def Harmless (s : SampleVectorReader) (request : ℕ × Bool) : Prop :=
  request.2 = true ∨ s.curPos = request.1 + 1 ∨ f.vectorLen = 0

/-- The position is the one the reader keeps, and all vectors so far were the ones asked for. -/
structure Aligned (s : SampleVectorReader) : Prop where
  position : s.position = 8 + s.curPos * f.vectorLen
  given : ∀ entry ∈ s.given, entry.2 = f.vector entry.1

variable {f} {s : SampleVectorReader}

theorem Aligned.readVector {request : ℕ × Bool} (aligned : Aligned f s) (harmless : Harmless f s request) :
    Aligned f (readVector f s request).1 := by
  obtain ⟨idx, accepts⟩ := request
  unfold SampleVectorReader.readVector
  by_cases outside : f.npts ≤ idx
  · rwa [if_pos outside]
  have target : (s.position : ℤ) + ((idx : ℤ) - s.curPos) * f.vectorLen = (8 + idx * f.vectorLen : ℕ) := by
    rw [aligned.position]
    push_cast
    ring
  have last : (idx + 1) * f.vectorLen ≤ f.npts * f.vectorLen :=
    Nat.mul_le_mul_right _ (Nat.lt_of_not_le outside)
  have next : (idx + 1) * f.vectorLen = idx * f.vectorLen + f.vectorLen := Nat.succ_mul _ _
  have whole : ¬ f.bytes.length < 8 + idx * f.vectorLen + f.vectorLen := by
    rw [VectorFile.bytes, length_append, f.header_length, f.data_length, ← VectorFile.vectorLen]
    omega
  have vector : (f.bytes.drop (8 + idx * f.vectorLen)).take f.vectorLen = f.vector idx := by
    rw [VectorFile.bytes, drop_append, f.header_length, Nat.add_sub_cancel_left,
      drop_eq_nil_of_le (by rw [f.header_length]; omega), nil_append, VectorFile.vector]
  simp only [if_neg outside, target, if_neg (Int.natCast_nonneg _).not_gt, Int.toNat_natCast, if_neg whole,
    vector]
  have given : ∀ entry ∈ s.given ++ [(idx, f.vector idx)], entry.2 = f.vector entry.1 := by
    rw [forall_mem_append]
    exact ⟨aligned.given, forall_mem_singleton.mpr rfl⟩
  split_ifs with ok
  · exact ⟨by dsimp only; omega, given⟩
  · obtain accepts | behind | empty := harmless
    · exact absurd accepts ok
    · exact ⟨by rw [behind, next, Nat.add_assoc], given⟩
    · refine ⟨?_, given⟩
      dsimp only
      rw [empty, Nat.mul_zero, Nat.mul_zero]

theorem Aligned.readVectors {call : List (ℕ × Bool)} (aligned : Aligned f s)
    (harmless : ∀ before request after, call = before ++ request :: after →
      (readVectors f s before).2 = .ok () → Harmless f (readVectors f s before).1 request) :
    Aligned f (readVectors f s call).1 := by
  induction call generalizing s with
  | nil => exact aligned
  | cons request rest ih =>
    have step := aligned.readVector (harmless [] request rest rfl rfl)
    have later (before) : SampleVectorReader.readVectors f s (request :: before) =
        match SampleVectorReader.readVector f s request with
        | (s, .ok ()) => SampleVectorReader.readVectors f s before
        | (s, .error e) => (s, .error e) := rfl
    rw [later]
    split
    · rename_i s' ran
      rw [ran] at step
      refine ih step fun before request' after split done => ?_
      have harmless' := harmless (request :: before) request' after (congrArg (request :: ·) split)
      rw [later, ran] at harmless'
      exact harmless' done
    · rename_i s' e ran
      rwa [ran] at step

end SampleVectorReader

open SampleVectorReader in
/-- In every sequence of calls in which each failing callback is harmless, each callback is given the vector
that is stored at the index. -/
theorem readVectors_exact {size : ℕ} (f : VectorFile size) (calls : List (List (ℕ × Bool)))
    (harmless : ∀ done call rest, calls = done ++ call :: rest → ∀ before request after,
      call = before ++ request :: after → (readVectors f (run f done) before).2 = .ok () →
      Harmless f (readVectors f (run f done) before).1 request) :
    ∀ entry ∈ (run f calls).given, entry.2 = f.vector entry.1 := by
  suffices aligned : Aligned f (run f calls) from aligned.given
  induction calls using reverseRecOn with
  | nil => exact ⟨by simp [run, new], forall_mem_nil _⟩
  | append_singleton calls call ih =>
    rw [run, foldl_append]
    refine (ih fun done call' rest split => harmless done call' (rest ++ [call]) (by simp [split])).readVectors ?_
    exact harmless calls call [] rfl

/-- Two vectors of one byte. -/
def twoVectors : VectorFile 1 := ⟨2, 1, replicate 8 0, [10, 20], rfl, rfl⟩

open SampleVectorReader in
theorem readVectors_exact_two : (1, [20]) ∈ (run twoVectors [[(1, true)]]).given ∧
    ∀ entry ∈ (run twoVectors [[(1, true)]]).given, entry.2 = twoVectors.vector entry.1 := by
  refine ⟨by decide, readVectors_exact twoVectors [[(1, true)]] ?_⟩
  intro done call rest split before request after inner _
  have mem : request ∈ [(1, true)] := by
    have : call ∈ [[(1, true)]] := split ▸ mem_append_right _ mem_cons_self
    rw [← mem_singleton.mp this, inner]
    exact mem_append_right _ mem_cons_self
  exact .inl (by rw [mem_singleton.mp mem])

/-- After a callback has failed, the same index gives another vector. -/
theorem readVectors_shifted : (SampleVectorReader.run twoVectors [[(0, false)], [(0, true)]]).given =
    [(0, [10]), (0, [20])] ∧ twoVectors.vector 0 = [10] := by
  decide

end DiskAnn.Sampling
