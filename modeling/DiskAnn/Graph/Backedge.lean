import Mathlib

/-! # Adjacency lists and back edges

`AdjacencyList` of `adjacencylist.rs`, `BackedgeBuffer` of `backedge.rs` and `aggregate_backedges` of
`index.rs`. A buffer holds up to four ids inline and an adjacency list beyond that; every
representation stands for the list of its ids in the order of their insertion.
-/

namespace DiskAnn

open List Function

structure AdjacencyList (I : Type) where
  edges : List I
  deriving DecidableEq, Repr

namespace AdjacencyList

variable {I : Type} [DecidableEq I]

/-- Append an id that the list does not contain; says whether it was added. -/
def push (list : AdjacencyList I) (i : I) : AdjacencyList I × Bool :=
  if i ∈ list.edges then (list, false) else (⟨list.edges ++ [i]⟩, true)

end AdjacencyList

inductive BackedgeBuffer (I : Type) where
  | none
  | one (v : I)
  | two (v₀ v₁ : I)
  | three (v₀ v₁ v₂ : I)
  | four (v₀ v₁ v₂ v₃ : I)
  | many (list : AdjacencyList I)
  deriving DecidableEq, Repr

structure PendingEdge (I : Type) where
  source : I
  edges : AdjacencyList I

namespace BackedgeBuffer

variable {I : Type} [DecidableEq I]

def new (value : I) : BackedgeBuffer I := .one value

def push (buffer : BackedgeBuffer I) (value : I) : BackedgeBuffer I × Bool :=
  match buffer with
  | .none => (.one value, true)
  | .one v => if v ≠ value then (.two v value, true) else (.one v, false)
  | .two v₀ v₁ =>
      if v₀ ≠ value ∧ v₁ ≠ value then (.three v₀ v₁ value, true) else (.two v₀ v₁, false)
  | .three v₀ v₁ v₂ =>
      if v₀ ≠ value ∧ v₁ ≠ value ∧ v₂ ≠ value then (.four v₀ v₁ v₂ value, true)
      else (.three v₀ v₁ v₂, false)
  | .four v₀ v₁ v₂ v₃ =>
      if v₀ ≠ value ∧ v₁ ≠ value ∧ v₂ ≠ value ∧ v₃ ≠ value then
        (.many ⟨[v₀, v₁, v₂, v₃, value]⟩, true)
      else (.four v₀ v₁ v₂ v₃, false)
  | .many list => (.many (list.push value).1, (list.push value).2)

/-- `deref` -/
def toList : BackedgeBuffer I → List I
  | .none => []
  | .one v => [v]
  | .two v₀ v₁ => [v₀, v₁]
  | .three v₀ v₁ v₂ => [v₀, v₁, v₂]
  | .four v₀ v₁ v₂ v₃ => [v₀, v₁, v₂, v₃]
  | .many list => list.edges

/-- Whatever the representation, an id is appended once. -/
theorem toList_push (buffer : BackedgeBuffer I) (value : I) :
    (buffer.push value).1.toList =
      if value ∈ buffer.toList then buffer.toList else buffer.toList ++ [value] := by
  cases buffer with
  | none => simp [push, toList]
  | one v => grind [push, toList]
  | two v₀ v₁ => grind [push, toList]
  | three v₀ v₁ v₂ => grind [push, toList]
  | four v₀ v₁ v₂ v₃ => grind [push, toList]
  | many list => grind [push, toList, AdjacencyList.push]

end BackedgeBuffer

section Aggregate

variable {I : Type} [DecidableEq I] {map : I → Option (BackedgeBuffer I)} {t s : I}

/-- The inner step of `aggregate_backedges`; the map is a function. -/
def addBackedge (source : I) (map : I → Option (BackedgeBuffer I)) (target : I) :
    I → Option (BackedgeBuffer I) :=
  update map target (match map target with
    | some buffer => some (buffer.push source).1
    | none => some (BackedgeBuffer.new source))

def aggregateBackedges (lists : List (PendingEdge I)) : I → Option (BackedgeBuffer I) :=
  lists.foldl (fun map pending => pending.edges.edges.foldl (addBackedge pending.source) map)
    fun _ => none

/-- The ids that a map of back edges associates with a target. -/
def sources (map : I → Option (BackedgeBuffer I)) (target : I) : List I :=
  ((map target).map BackedgeBuffer.toList).getD []

theorem sources_addBackedge (source : I) (map : I → Option (BackedgeBuffer I)) (target t : I) :
    sources (addBackedge source map target) t =
      if t = target ∧ source ∉ sources map t then sources map t ++ [source] else sources map t := by
  rcases eq_or_ne t target with rfl | other
  · simp only [sources, addBackedge]
    cases map t with
    | none => simp [BackedgeBuffer.new, BackedgeBuffer.toList]
    | some buffer => grind [BackedgeBuffer.toList_push]
  · simp [sources, addBackedge, other]

theorem mem_sources_addBackedge {source : I} {target : I} :
    s ∈ sources (addBackedge source map target) t ↔
      s ∈ sources map t ∨ (s = source ∧ t = target) := by
  rw [sources_addBackedge]
  split
  · rename_i added
    simp [added.1]
  · rename_i kept
    constructor
    · exact .inl
    · rintro (mem | ⟨rfl, same⟩)
      · exact mem
      · by_contra missing
        exact kept ⟨same, missing⟩

/-- What is kept of a map of back edges: no id twice, and no target without one. -/
structure ProperBackedges (map : I → Option (BackedgeBuffer I)) : Prop where
  distinct : ∀ target, (sources map target).Nodup
  nonempty : ∀ target, map target ≠ none → sources map target ≠ []

theorem ProperBackedges.addBackedge (proper : ProperBackedges map) (source target : I) :
    ProperBackedges (addBackedge source map target) := by
  refine ⟨fun t => ?_, fun t stored => ?_⟩
  · rw [sources_addBackedge]
    split
    · exact (proper.distinct t).append (nodup_singleton source)
        (disjoint_singleton.mpr (‹_ ∧ _›).2)
    · exact proper.distinct t
  · rcases eq_or_ne t target with rfl | other
    · exact ne_nil_of_mem (mem_sources_addBackedge.mpr (.inr ⟨rfl, rfl⟩))
    · rw [DiskAnn.addBackedge, update_of_ne other] at stored
      rw [sources_addBackedge, if_neg fun both => other both.1]
      exact proper.nonempty t stored

theorem mem_sources_foldl {source : I} {targets : List I} :
    s ∈ sources (targets.foldl (addBackedge source) map) t ↔
      s ∈ sources map t ∨ (s = source ∧ t ∈ targets) := by
  induction targets generalizing map with
  | nil => simp
  | cons target targets ih =>
    rw [foldl_cons, ih, mem_sources_addBackedge, mem_cons]
    tauto

theorem mem_sources_aggregate {lists : List (PendingEdge I)} :
    s ∈ sources (aggregateBackedges lists) t ↔
      ∃ pending ∈ lists, pending.source = s ∧ t ∈ pending.edges.edges := by
  have general : ∀ map, s ∈ sources (lists.foldl (fun map pending =>
      pending.edges.edges.foldl (addBackedge pending.source) map) map) t ↔
      s ∈ sources map t ∨ ∃ pending ∈ lists, pending.source = s ∧ t ∈ pending.edges.edges := by
    induction lists with
    | nil => simp
    | cons pending lists ih =>
      intro map
      rw [foldl_cons, ih, mem_sources_foldl]
      simp only [mem_cons, exists_eq_or_imp]
      tauto
  rw [aggregateBackedges, general]
  simp [sources]

theorem proper_aggregate (lists : List (PendingEdge I)) :
    ProperBackedges (aggregateBackedges lists) := by
  refine foldlRecOn _ _ ⟨fun _ => nodup_nil, fun _ stored => absurd rfl stored⟩
    fun map proper pending _ => ?_
  exact foldlRecOn _ _ proper fun _ kept target _ => kept.addBackedge _ target

/-- The back edges of a batch are the transpose of its edges, each once, and the order of the batch
shows in the order of each list only. -/
theorem aggregateBackedges_transpose (lists : List (PendingEdge I)) :
    (∀ t s, s ∈ sources (aggregateBackedges lists) t ↔
      ∃ pending ∈ lists, pending.source = s ∧ t ∈ pending.edges.edges) ∧
    (∀ t, aggregateBackedges lists t ≠ none ↔ ∃ pending ∈ lists, t ∈ pending.edges.edges) ∧
    (∀ t, (sources (aggregateBackedges lists) t).Nodup) ∧
    ∀ reordered : List (PendingEdge I), reordered.Perm lists → ∀ t,
      (aggregateBackedges reordered t = none ↔ aggregateBackedges lists t = none) ∧
        (sources (aggregateBackedges reordered) t).Perm (sources (aggregateBackedges lists) t) := by
  have stored : ∀ (lists : List (PendingEdge I)) t,
      aggregateBackedges lists t ≠ none ↔ ∃ pending ∈ lists, t ∈ pending.edges.edges := by
    intro lists t
    constructor
    · intro present
      obtain ⟨s, member⟩ := exists_mem_of_ne_nil _ ((proper_aggregate lists).nonempty t present)
      obtain ⟨pending, listed, -, edge⟩ := mem_sources_aggregate.mp member
      exact ⟨pending, listed, edge⟩
    · rintro ⟨pending, listed, edge⟩ missing
      have member := mem_sources_aggregate.mpr ⟨pending, listed, rfl, edge⟩
      simp [sources, missing] at member
  refine ⟨fun t s => mem_sources_aggregate, stored lists, (proper_aggregate lists).distinct,
    fun reordered same t => ⟨?_, ?_⟩⟩
  · rw [← not_iff_not]
    exact (stored reordered t).trans ((exists_congr fun pending =>
      and_congr_left' same.mem_iff).trans (stored lists t).symm)
  · refine (perm_ext_iff_of_nodup ((proper_aggregate reordered).distinct t)
      ((proper_aggregate lists).distinct t)).mpr fun s => ?_
    rw [mem_sources_aggregate, mem_sources_aggregate]
    exact exists_congr fun pending => and_congr_left' same.mem_iff

end Aggregate

end DiskAnn
