import Mathlib

/-! # Latin hypercube sampling

`latin_hypercube.rs`: a row is drawn from each stratum for every column, and then the entries of each
column are swapped at random. The generator gives a word for each cell and phase, and a draw from an
empty range panics. A panic is no result.
-/

namespace DiskAnn.Sampling

open List Function

/-- `Rng::random_range` on `lo..hi`. -/
def randomRange (word lo hi : ℕ) : Option ℕ := if lo < hi then some (lo + word % (hi - lo)) else none

/-- An index that is checked. -/
def inBounds (n i : ℕ) : Option (Fin n) := if inside : i < n then some ⟨i, inside⟩ else none

variable {T : Type} {nrows ncols : ℕ}

/-- The cells of the result in the order of the two loops. -/
def cells (numSamples ncols : ℕ) : List (Fin numSamples × Fin ncols) :=
  finRange numSamples ×ˢ finRange ncols

/-- The entry that the first phase draws for a cell. -/
def pick (data : Fin nrows → Fin ncols → T) {numSamples : ℕ} (picks : Fin numSamples × Fin ncols → ℕ)
    (cell : Fin numSamples × Fin ncols) : Option T := do
  let step := nrows / numSamples
  let row ← randomRange (picks cell) (cell.1 * step) ((cell.1 + 1) * step)
  let row ← inBounds nrows row
  pure (data row cell.2)

/-- One round of the second phase. -/
def shuffle {numSamples : ℕ} (swaps : Fin numSamples × Fin ncols → ℕ)
    (result : Fin numSamples × Fin ncols → T) (cell : Fin numSamples × Fin ncols) :
    Option (Fin numSamples × Fin ncols → T) := do
  let swapIdx ← randomRange (swaps cell) 0 numSamples
  let swapIdx ← inBounds numSamples swapIdx
  let swap := result cell
  pure (update (update result cell (result (swapIdx, cell.2))) (swapIdx, cell.2) swap)

def sampleLatinHypercube [Inhabited T] (data : Fin nrows → Fin ncols → T) (numSamples : ℕ)
    (picks swaps : Fin numSamples × Fin ncols → ℕ) : Option (Fin numSamples × Fin ncols → T) :=
  if ncols = 0 ∨ nrows = 0 then some fun _ => default
  else do
    let result ← (cells numSamples ncols).foldlM
      (fun result cell => (pick data picks cell).map (update result cell)) fun _ => default
    (cells numSamples ncols).foldlM (shuffle swaps) result

/-- The rows of a stratum. -/
def stratum (nrows numSamples s : ℕ) : Set ℕ := Set.Ico (s * (nrows / numSamples)) ((s + 1) * (nrows / numSamples))

/-- In each column, every stratum of rows has given one of the entries. -/
def Stratified {numSamples : ℕ} (data : Fin nrows → Fin ncols → T)
    (result : Fin numSamples × Fin ncols → T) : Prop :=
  ∀ col, ∃ order : Equiv.Perm (Fin numSamples), ∀ i, ∃ row : Fin nrows,
    row.val ∈ stratum nrows numSamples (order i) ∧ result (i, col) = data row col

section Phases

variable {numSamples : ℕ} {data : Fin nrows → Fin ncols → T}
  {picks : Fin numSamples × Fin ncols → ℕ} {result : Fin numSamples × Fin ncols → T}

theorem mem_cells (cell : Fin numSamples × Fin ncols) : cell ∈ cells numSamples ncols :=
  mem_product.mpr ⟨mem_finRange _, mem_finRange _⟩

/-- With enough rows for the strata, each draw of the first phase is in its stratum. -/
theorem pick_eq_some (enough : numSamples ≤ nrows) (cell : Fin numSamples × Fin ncols) :
    ∃ row : Fin nrows, row.val ∈ stratum nrows numSamples cell.1 ∧
      pick data picks cell = some (data row cell.2) := by
  have pos : 0 < nrows / numSamples := Nat.div_pos enough cell.1.pos
  have last : (cell.1.val + 1) * (nrows / numSamples) ≤ nrows :=
    (Nat.mul_le_mul_right _ cell.1.isLt).trans (nrows.mul_div_le numSamples)
  have width : (cell.1.val + 1) * (nrows / numSamples) =
      cell.1 * (nrows / numSamples) + nrows / numSamples := Nat.succ_mul _ _
  have drawn := Nat.mod_lt (picks cell) pos
  refine ⟨⟨cell.1 * (nrows / numSamples) + picks cell % (nrows / numSamples), by omega⟩,
    ⟨Nat.le_add_right _ _, by dsimp only; omega⟩, ?_⟩
  rw [pick, width, randomRange, if_pos (by omega), Nat.add_sub_cancel_left]
  exact congrArg (Option.bind · _) (dif_pos _)

theorem foldlM_map_update {α β : Type} [DecidableEq α] {f : α → Option β} {value : α → β}
    (given : ∀ a, f a = some (value a)) (l : List α) (start : α → β) :
    l.foldlM (fun r a => (f a).map (update r a)) start =
      some fun a => if a ∈ l then value a else start a := by
  induction l generalizing start with
  | nil => simp
  | cons a l ih =>
    rw [foldlM_cons, given a]
    refine (ih _).trans (congrArg some (funext fun other => ?_))
    by_cases same : other = a
    · simp [same]
    · simp [same]

/-- A swap within a column reorders it. -/
theorem Stratified.shuffle (swaps : Fin numSamples × Fin ncols → ℕ) (stratified : Stratified data result)
    (cell : Fin numSamples × Fin ncols) :
    ∃ result', shuffle swaps result cell = some result' ∧ Stratified data result' := by
  have drawn : swaps cell % numSamples < numSamples := Nat.mod_lt _ cell.1.pos
  refine ⟨result ∘ Equiv.swap (⟨_, drawn⟩, cell.2) cell, ?_, fun col => ?_⟩
  · rw [Equiv.comp_swap_eq_update, Sampling.shuffle, randomRange, if_pos cell.1.pos, Nat.zero_add, Nat.sub_zero]
    simp only [Option.bind_eq_bind, Option.bind_some, inBounds, dif_pos drawn]
    rfl
  · obtain ⟨order, from_⟩ := stratified col
    by_cases here : col = cell.2
    · refine ⟨(Equiv.swap ⟨_, drawn⟩ cell.1).trans order, fun i => ?_⟩
      obtain ⟨row, within, same⟩ := from_ (Equiv.swap ⟨_, drawn⟩ cell.1 i)
      refine ⟨row, within, same ▸ congrArg result ?_⟩
      simp only [Equiv.swap_apply_def, here, Prod.ext_iff]
      split_ifs <;> simp_all
    · refine ⟨order, fun i => ?_⟩
      rw [comp_apply, Equiv.swap_apply_of_ne_of_ne]
      · exact from_ i
      · exact fun same => here (congrArg Prod.snd same)
      · exact fun same => here (congrArg Prod.snd same)

theorem Stratified.foldlM_shuffle (swaps : Fin numSamples × Fin ncols → ℕ)
    (stratified : Stratified data result) (l : List (Fin numSamples × Fin ncols)) :
    ∃ result', l.foldlM (Sampling.shuffle swaps) result = some result' ∧ Stratified data result' := by
  induction l generalizing result with
  | nil => exact ⟨result, rfl, stratified⟩
  | cons cell l ih =>
    obtain ⟨result₁, swapped, stratified₁⟩ := stratified.shuffle swaps cell
    obtain ⟨result', rest, stratified'⟩ := ih stratified₁
    exact ⟨result', by rw [foldlM_cons, swapped]; exact rest, stratified'⟩

end Phases

/-- Sampling a matrix that is not empty ends with entries of the right columns, one of each stratum, whatever
is drawn, exactly if there are at least as many rows as samples. -/
theorem sampleLatinHypercube_iff [Inhabited T] (data : Fin nrows → Fin ncols → T) (numSamples : ℕ)
    (picks swaps : Fin numSamples × Fin ncols → ℕ) (rows : 0 < nrows) (cols : 0 < ncols)
    (samples : 0 < numSamples) :
    (∃ result, sampleLatinHypercube data numSamples picks swaps = some result ∧
      (∀ i col, ∃ row, result (i, col) = data row col) ∧
      (numSamples ≤ nrows → Stratified data result)) ↔ numSamples ≤ nrows := by
  have nonempty : ¬ (ncols = 0 ∨ nrows = 0) := by omega
  rw [sampleLatinHypercube, if_neg nonempty]
  constructor
  · rintro ⟨result, sampled, -⟩
    by_contra short
    -- the strata are empty, and so the draw for the first cell panics
    have empty : nrows / numSamples = 0 := Nat.div_eq_of_lt (not_le.mp short)
    have none : ∀ cell, pick data picks cell = none := fun cell => by
      rw [pick, empty, randomRange, Nat.mul_zero, Nat.mul_zero, if_neg (lt_irrefl 0)]
      rfl
    obtain ⟨cell, rest, first⟩ := exists_cons_of_ne_nil
      (ne_nil_of_mem (mem_cells ((⟨0, samples⟩, ⟨0, cols⟩) : Fin numSamples × Fin ncols)))
    rw [first, foldlM_cons, none] at sampled
    cases sampled
  · intro enough
    choose row within picked using @pick_eq_some T nrows ncols numSamples data picks enough
    have filled := (foldlM_map_update picked (cells numSamples ncols) fun _ => default).trans
      (congrArg some (funext fun cell => if_pos (mem_cells cell)))
    have drawn : Stratified data fun cell => data (row cell) cell.2 := fun col =>
      ⟨1, fun i => ⟨row (i, col), within (i, col), rfl⟩⟩
    rw [filled]
    obtain ⟨result, shuffled, stratified⟩ := drawn.foldlM_shuffle swaps (cells numSamples ncols)
    refine ⟨result, shuffled, fun i col => ?_, fun _ => stratified⟩
    obtain ⟨order, from_⟩ := stratified col
    obtain ⟨row, -, same⟩ := from_ i
    exact ⟨row, same⟩

theorem sampleLatinHypercube_four : ∃ result,
    sampleLatinHypercube (fun (row : Fin 4) (_ : Fin 1) => row.val) 2 (fun _ => 1) (fun _ => 0) = some result ∧
      Stratified (fun (row : Fin 4) _ => row.val) result := by
  obtain ⟨result, sampled, -, stratified⟩ := (sampleLatinHypercube_iff (fun (row : Fin 4) (_ : Fin 1) => row.val)
    2 (fun _ => 1) (fun _ => 0) (by decide) (by decide) (by decide)).mpr (by decide)
  exact ⟨result, sampled, stratified (by decide)⟩

/-- One row does not suffice for two samples. -/
theorem sampleLatinHypercube_panics :
    sampleLatinHypercube (fun (row : Fin 1) (_ : Fin 1) => row.val) 2 (fun _ => 0) (fun _ => 0) = none := by
  decide

end DiskAnn.Sampling
