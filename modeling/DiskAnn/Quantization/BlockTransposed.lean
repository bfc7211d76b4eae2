import Mathlib

/-! # Block-transposed matrices

`block_transposed.rs`: the rows of a matrix in blocks of `GROUP`, a block with its columns one after
another, `PACK` of them interleaved. Rows and columns are padded to whole blocks and packs. The backing
allocation is a function of the position, and all positions a caller can name lie below `storageLen`.
-/

namespace DiskAnn.Quantization

open List Function Nat

def paddedNcols (PACK ncols : ℕ) : ℕ := (ncols + PACK - 1) / PACK * PACK

def linearIndex (GROUP PACK row col ncols : ℕ) : ℕ :=
  let pncols := paddedNcols PACK ncols
  let block := row / GROUP
  let rowInBlock := row % GROUP
  block * GROUP * pncols + col / PACK * GROUP * PACK + rowInBlock * PACK + col % PACK

def colOffset (GROUP PACK col : ℕ) : ℕ := col / PACK * GROUP * PACK + col % PACK

/-- The assertions on the constants are fields. -/
structure BlockTransposedRepr (GROUP PACK : ℕ) where
  nrows : ℕ
  ncols : ℕ
  group_pos : 0 < GROUP
  pack_pos : 0 < PACK
  pack_dvd : PACK ∣ GROUP

namespace BlockTransposedRepr

variable {GROUP PACK : ℕ} {α : Type}

def storageLen (m : BlockTransposedRepr GROUP PACK) : ℕ :=
  (m.nrows + GROUP - 1) / GROUP * GROUP * paddedNcols PACK m.ncols

def fullBlocks (m : BlockTransposedRepr GROUP PACK) : ℕ := m.nrows / GROUP

def numBlocks (m : BlockTransposedRepr GROUP PACK) : ℕ := (m.nrows + GROUP - 1) / GROUP

def remainder (m : BlockTransposedRepr GROUP PACK) : ℕ := m.nrows % GROUP

def paddedNrows (m : BlockTransposedRepr GROUP PACK) : ℕ := m.numBlocks * GROUP

def blockStride (m : BlockTransposedRepr GROUP PACK) : ℕ := GROUP * paddedNcols PACK m.ncols

def blockOffset (m : BlockTransposedRepr GROUP PACK) (block : ℕ) : ℕ := block * m.blockStride

/-- A view of a matrix: where it starts, and its numbers of rows and columns. -/
structure MatrixView where
  offset : ℕ
  nrows : ℕ
  ncols : ℕ

def MatrixView.index (v : MatrixView) (i j : ℕ) : ℕ := v.offset + (i * v.ncols + j)

/-- `MatrixView::try_from` on the slice of one block. -/
def blockView (m : BlockTransposedRepr GROUP PACK) (block : ℕ) : Option MatrixView :=
  let nrows := paddedNcols PACK m.ncols / PACK
  if m.blockStride = nrows * (GROUP * PACK) then some ⟨m.blockOffset block, nrows, GROUP * PACK⟩ else none

def block (m : BlockTransposedRepr GROUP PACK) (block : ℕ) : Option MatrixView :=
  if block < m.fullBlocks then m.blockView block else none

def remainderBlock (m : BlockTransposedRepr GROUP PACK) : Option (Option MatrixView) :=
  if m.remainder = 0 then some none else (m.blockView m.fullBlocks).map some

def getElement (m : BlockTransposedRepr GROUP PACK) (data : ℕ → α) (row col : ℕ) : Option α :=
  if row < m.nrows ∧ col < m.ncols then some (data (linearIndex GROUP PACK row col m.ncols)) else none

/-- `RowMut::set` on the row that `get_row_mut` gives. -/
def setElement (m : BlockTransposedRepr GROUP PACK) (data : ℕ → α) (row col : ℕ) (value : α) :
    Option (ℕ → α) :=
  if row < m.nrows ∧ col < m.ncols then
    some (update data (linearIndex GROUP PACK row 0 m.ncols + colOffset GROUP PACK col) value)
  else none

/-- The position of the next write, and the allocation. -/
structure Copy (α : Type) where
  dst : ℕ
  data : ℕ → α

/-- `for i in 0..n` -/
def loop (n : ℕ) (body : ℕ → Copy α → Copy α) (s : Copy α) : Copy α :=
  (range n).foldl (fun s i => body i s) s

def fromStrided [Inhabited α] (m : BlockTransposedRepr GROUP PACK) (v : ℕ → ℕ → α) : Copy α :=
  let numColGroups := paddedNcols PACK m.ncols / PACK
  loop m.numBlocks (fun block => loop numColGroups fun cg => loop GROUP fun rib s =>
    let row := block * GROUP + rib
    if row < m.nrows then
      loop PACK (fun p s =>
        let col := cg * PACK + p
        ⟨s.dst + 1, if col < m.ncols then update s.data s.dst (v row col) else s.data⟩) s
    else { s with dst := s.dst + PACK }) ⟨0, fun _ => default⟩

/-! ## Positions -/

variable (m : BlockTransposedRepr GROUP PACK) {row col k : ℕ}

/-- The number of groups of columns. -/
def groups : ℕ := (m.ncols + PACK - 1) / PACK

/-- The row and the column at a position of the allocation. -/
def position (k : ℕ) : ℕ × ℕ :=
  (k / PACK / GROUP / m.groups * GROUP + k / PACK % GROUP, k / PACK / GROUP % m.groups * PACK + k % PACK)

theorem linearIndex_eq (row col : ℕ) : linearIndex GROUP PACK row col m.ncols =
    ((row / GROUP * m.groups + col / PACK) * GROUP + row % GROUP) * PACK + col % PACK := by
  simp only [linearIndex, paddedNcols, groups]
  ring

theorem storageLen_eq : m.storageLen = m.numBlocks * m.groups * GROUP * PACK := by
  simp only [storageLen, paddedNcols, numBlocks, groups]
  ring

theorem div_mod_of_lt {a b n : ℕ} (small : b < n) : (a * n + b) / n = a ∧ (a * n + b) % n = b := by
  rw [mul_comm, mul_add_div (by omega), div_eq_of_lt small, mul_add_mod,
    mod_eq_of_lt small]
  exact ⟨rfl, rfl⟩

theorem mul_add_lt {a b n l : ℕ} (first : a < l) (second : b < n) : a * n + b < l * n :=
  calc a * n + b < (a + 1) * n := by rw [succ_mul]; omega
    _ ≤ l * n := mul_le_mul_right n first

theorem position_eq {block cg rib p : ℕ} (group : cg < m.groups) (row : rib < GROUP) (lane : p < PACK) :
    m.position (((block * m.groups + cg) * GROUP + rib) * PACK + p) =
      (block * GROUP + rib, cg * PACK + p) := by
  simp only [position, div_mod_of_lt lane, div_mod_of_lt row, div_mod_of_lt group]

theorem position_linearIndex (inside : col < paddedNcols PACK m.ncols) :
    m.position (linearIndex GROUP PACK row col m.ncols) = (row, col) := by
  have group : col / PACK < m.groups := Nat.div_lt_of_lt_mul (Nat.mul_comm _ _ ▸ inside)
  rw [linearIndex_eq, m.position_eq group (mod_lt _ m.group_pos) (mod_lt _ m.pack_pos),
    div_add_mod', div_add_mod']

theorem linearIndex_lt (rows : row < m.paddedNrows) (cols : col < paddedNcols PACK m.ncols) :
    linearIndex GROUP PACK row col m.ncols < m.storageLen := by
  have group : col / PACK < m.groups := Nat.div_lt_of_lt_mul (Nat.mul_comm _ _ ▸ cols)
  have block : row / GROUP < m.numBlocks := Nat.div_lt_of_lt_mul (Nat.mul_comm _ _ ▸ rows)
  rw [linearIndex_eq, storageLen_eq]
  exact mul_add_lt (mul_add_lt (mul_add_lt block group) (mod_lt _ m.group_pos))
    (mod_lt _ m.pack_pos)

theorem linearIndex_position (inside : k < m.storageLen) :
    linearIndex GROUP PACK (m.position k).1 (m.position k).2 m.ncols = k ∧
      (m.position k).1 < m.paddedNrows ∧ (m.position k).2 < paddedNcols PACK m.ncols := by
  have lane : k % PACK < PACK := mod_lt _ m.pack_pos
  have rib : k / PACK % GROUP < GROUP := mod_lt _ m.group_pos
  have total : k / PACK / GROUP < m.numBlocks * m.groups := by
    rw [storageLen_eq, mul_comm, mul_comm _ GROUP] at inside
    exact Nat.div_lt_of_lt_mul (Nat.div_lt_of_lt_mul inside)
  have some : 0 < m.groups := Nat.pos_of_mul_pos_left (Nat.zero_lt_of_lt total)
  refine ⟨?_, mul_add_lt (Nat.div_lt_of_lt_mul (Nat.mul_comm _ _ ▸ total)) rib,
    mul_add_lt (mod_lt _ some) lane⟩
  simp only [position, linearIndex_eq, div_mod_of_lt lane, div_mod_of_lt rib, div_add_mod']

theorem le_padded {n : ℕ} (positive : 0 < n) (a : ℕ) : a ≤ (a + n - 1) / n * n := by
  have := div_add_mod' (a + n - 1) n
  have := mod_lt (a + n - 1) positive
  omega

/-! ## Copying a matrix -/

section Copy

variable (v : ℕ → ℕ → α)

/-- A loop each iteration of which is done with `w` positions. -/
theorem loop_of_step {P : ℕ → Copy α → Prop} {w n start stop : ℕ} {body : ℕ → Copy α → Copy α}
    {s : Copy α} (whole : start + n * w = stop) (holds : P start s)
    (step : ∀ i < n, ∀ s, P (start + i * w) s → P (start + i * w + w) (body i s)) :
    P stop (loop n body s) := by
  subst whole
  induction n with
  | zero => simpa [loop] using holds
  | succ n ih =>
    rw [loop, range_succ, foldl_append, succ_mul, ← add_assoc]
    exact step n (n.lt_succ_self) _ (ih fun i small => step i (by omega))

variable [Inhabited α]

/-- What belongs at a position. -/
def wanted (k : ℕ) : α :=
  if (m.position k).1 < m.nrows ∧ (m.position k).2 < m.ncols then v (m.position k).1 (m.position k).2
  else default

/-- The first `n` positions are done, and the others not touched. -/
structure Filled (n : ℕ) (s : Copy α) : Prop where
  dst : s.dst = n
  data : ∀ k, s.data k = if k < n then m.wanted v k else default

variable {m v}

theorem Filled.write {n row col : ℕ} {s : Copy α} (filled : m.Filled v n s)
    (here : m.position n = (row, col)) (inside : row < m.nrows) :
    m.Filled v (n + 1) ⟨s.dst + 1, if col < m.ncols then update s.data s.dst (v row col) else s.data⟩ := by
  have wanted : m.wanted v n = if col < m.ncols then v row col else default := by
    simp only [BlockTransposedRepr.wanted, here, inside, true_and]
  refine ⟨congrArg (· + 1) filled.dst, fun k => ?_⟩
  have old := filled.data k
  change (if col < m.ncols then update s.data s.dst (v row col) else s.data) k = _
  rw [filled.dst]
  by_cases same : k = n
  · subst same
    rw [if_pos (k.lt_succ_self), wanted]
    split_ifs
    · rw [update_self]
    · rw [old, if_neg (lt_irrefl k)]
  · have bound : k < n + 1 ↔ k < n := by omega
    simp only [bound, ← old]
    split_ifs
    · rw [update_of_ne same]
    · rfl

theorem Filled.skip {n w : ℕ} {s : Copy α} (filled : m.Filled v n s)
    (padding : ∀ p < w, m.nrows ≤ (m.position (n + p)).1) :
    m.Filled v (n + w) { s with dst := s.dst + w } := by
  refine ⟨congrArg (· + w) filled.dst, fun k => (filled.data k).trans ?_⟩
  by_cases before : k < n
  · rw [if_pos before, if_pos (by omega)]
  · rw [if_neg before]
    split_ifs with here
    · obtain ⟨p, rfl⟩ := Nat.exists_eq_add_of_le (not_lt.mp before)
      rw [wanted, if_neg fun both => (padding p (by omega)).not_gt both.1]
    · rfl

variable (m v)

theorem fromStrided_filled : m.Filled v m.storageLen (m.fromStrided v) := by
  have columns : paddedNcols PACK m.ncols / PACK = m.groups := Nat.mul_div_cancel _ m.pack_pos
  have start : m.Filled v 0 ⟨0, fun _ => default⟩ := ⟨rfl, fun k => by rw [if_neg (k.not_lt_zero)]⟩
  rw [fromStrided, columns]
  refine loop_of_step (w := m.groups * (GROUP * PACK)) ?_ start fun block _ s filled => ?_
  · rw [storageLen_eq]
    ring
  refine loop_of_step rfl filled fun cg group s filled => ?_
  refine loop_of_step rfl filled fun rib inner s filled => ?_
  have here (p : ℕ) (lane : p < PACK) : m.position (0 + block * (m.groups * (GROUP * PACK)) +
      cg * (GROUP * PACK) + rib * PACK + p) = (block * GROUP + rib, cg * PACK + p) := by
    rw [← m.position_eq group inner lane]
    congr 1
    ring
  dsimp only
  split_ifs with inside
  · refine loop_of_step (by rw [mul_one]) filled fun p lane s filled => ?_
    rw [mul_one] at filled ⊢
    exact filled.write (here p lane) inside
  · refine filled.skip fun p lane => ?_
    rw [here p lane]
    exact not_lt.mp inside

end Copy

/-- The layout is a bijection from padded positions to the allocation, all ways to compute an index
agree, a copied matrix is read back with defaults in the padding, and a write changes one element. -/
theorem blockTransposed_layout (m : BlockTransposedRepr GROUP PACK) [Inhabited α] :
    Set.BijOn (fun at_ : ℕ × ℕ => linearIndex GROUP PACK at_.1 at_.2 m.ncols)
        {at_ | at_.1 < m.paddedNrows ∧ at_.2 < paddedNcols PACK m.ncols} {k | k < m.storageLen} ∧
      (∀ row col, linearIndex GROUP PACK row col m.ncols =
        linearIndex GROUP PACK row 0 m.ncols + colOffset GROUP PACK col) ∧
      (∀ row < m.nrows, ∀ col < paddedNcols PACK m.ncols, ∃ view,
        (m.block (row / GROUP) = some view ∨
          row / GROUP = m.fullBlocks ∧ m.remainderBlock = some (some view)) ∧
        col / PACK < view.nrows ∧ row % GROUP * PACK + col % PACK < view.ncols ∧
        view.index (col / PACK) (row % GROUP * PACK + col % PACK) =
          linearIndex GROUP PACK row col m.ncols) ∧
      (∀ v : ℕ → ℕ → α,
        (∀ row < m.nrows, ∀ col < m.ncols, m.getElement (m.fromStrided v).data row col = some (v row col)) ∧
        ∀ row < m.paddedNrows, ∀ col < paddedNcols PACK m.ncols, ¬ (row < m.nrows ∧ col < m.ncols) →
          (m.fromStrided v).data (linearIndex GROUP PACK row col m.ncols) = default) ∧
      ∀ (data : ℕ → α) row col value, row < m.nrows → col < m.ncols →
        ∃ data', m.setElement data row col value = some data' ∧ ∀ row' col',
          m.getElement data' row' col' =
            if (row', col') = (row, col) then some value else m.getElement data row' col' := by
  have rows {row : ℕ} (inside : row < m.nrows) : row < m.paddedNrows :=
    inside.trans_le (le_padded m.group_pos m.nrows)
  have cols {col : ℕ} (inside : col < m.ncols) : col < paddedNcols PACK m.ncols :=
    inside.trans_le (le_padded m.pack_pos m.ncols)
  have offset (row col : ℕ) : linearIndex GROUP PACK row col m.ncols =
      linearIndex GROUP PACK row 0 m.ncols + colOffset GROUP PACK col := by
    simp only [linearIndex, colOffset, Nat.zero_div, Nat.zero_mod]
    ring
  refine ⟨⟨fun at_ inside => m.linearIndex_lt inside.1 inside.2, fun a ha b hb same => ?_, fun k inside => ?_⟩,
    offset, fun row inside col below => ?_, fun v => ⟨fun row inside col below => ?_,
      fun row inside col below padding => ?_⟩, fun data row col value inside below => ?_⟩
  · have decoded := congrArg m.position same
    rwa [m.position_linearIndex ha.2, m.position_linearIndex hb.2] at decoded
  · obtain ⟨same, row, col⟩ := m.linearIndex_position inside
    exact ⟨m.position k, ⟨row, col⟩, same⟩
  · have columns : paddedNcols PACK m.ncols / PACK = m.groups := Nat.mul_div_cancel _ m.pack_pos
    have view : m.blockView (row / GROUP) = some ⟨m.blockOffset (row / GROUP), m.groups, GROUP * PACK⟩ := by
      rw [blockView, columns, if_pos]
      simp only [blockStride, paddedNcols, groups]
      ring
    refine ⟨⟨m.blockOffset (row / GROUP), m.groups, GROUP * PACK⟩, ?_,
      Nat.div_lt_of_lt_mul (Nat.mul_comm _ _ ▸ below),
      mul_add_lt (Nat.mod_lt _ m.group_pos) (Nat.mod_lt _ m.pack_pos), ?_⟩
    · rcases (Nat.div_le_div_right inside.le).lt_or_eq with full | last
      · exact .inl ((if_pos full).trans view)
      · refine .inr ⟨last, ?_⟩
        have some : m.remainder ≠ 0 := by
          intro none
          have whole := Nat.div_add_mod' m.nrows GROUP
          rw [← remainder, none, ← last] at whole
          exact (whole ▸ inside).not_ge (Nat.div_mul_le_self row GROUP)
        rw [remainderBlock, if_neg some, fullBlocks, ← last, view]
        rfl
    · simp only [MatrixView.index, blockOffset, blockStride, linearIndex]
      ring
  · rw [getElement, if_pos ⟨inside, below⟩, (m.fromStrided_filled v).data,
      if_pos (m.linearIndex_lt (rows inside) (cols below)), wanted, m.position_linearIndex (cols below),
      if_pos ⟨inside, below⟩]
  · rw [(m.fromStrided_filled v).data, if_pos (m.linearIndex_lt inside below), wanted,
      m.position_linearIndex below, if_neg padding]
  · refine ⟨_, if_pos ⟨inside, below⟩, fun row' col' => ?_⟩
    rw [← offset, getElement, getElement]
    by_cases valid : row' < m.nrows ∧ col' < m.ncols
    · rw [if_pos valid]
      split_ifs with same
      · cases same
        rw [update_self]
      · rw [update_of_ne fun equal => same ?_]
        have decoded := congrArg m.position equal
        rwa [m.position_linearIndex (cols valid.2), m.position_linearIndex (cols below)] at decoded
    · rw [if_neg valid, if_neg valid, if_neg]
      rintro ⟨⟩
      exact valid ⟨inside, below⟩

end BlockTransposedRepr

end DiskAnn.Quantization
