import Mathlib

/-! # Lists edited by index -/

namespace List

open Option

variable {α β γ : Type*} {l : List α} {p : α → Bool} {a : α} {R : α → β → Prop} {bs : List β}

theorem orderedInsert_eq_insertIdx (r : α → α → Prop) [DecidableRel r] (a : α) (l : List α) :
    l.orderedInsert r a = l.insertIdx (l.findIdx fun b => r a b) a := by
  induction l with
  | nil => rfl
  | cons b l ih =>
    by_cases before : r a b
    · simp [before, findIdx_cons]
    · simp [before, findIdx_cons, ih]

/-- What a sorted insertion into the first `n` elements pushes out, it pushes out of the whole list. -/
theorem take_orderedInsert_take (r : α → α → Prop) [DecidableRel r] (a : α) (l : List α) (n : ℕ) :
    ((l.take n).orderedInsert r a).take n = (l.orderedInsert r a).take n := by
  induction l generalizing n with
  | nil => simp
  | cons b l ih =>
    cases n with
    | zero => rfl
    | succ n =>
      by_cases before : r a b
      · simp only [take_succ_cons, orderedInsert, before, if_true]
        cases n with
        | zero => rfl
        | succ n =>
          rw [take_succ_cons, take_succ_cons, take_take, min_eq_left (n.le_succ)]
      · simp [before, ih]

theorem insertIdx_take {index n : ℕ} (a : α) (within : index ≤ n) :
    (l.take n).insertIdx index a = (l.insertIdx index a).take (n + 1) := by
  apply ext_getElem?
  intro i
  grind

theorem findIdx_congr {q : α → Bool} (same : ∀ a ∈ l, p a = q a) : l.findIdx p = l.findIdx q := by
  induction l with
  | nil => rfl
  | cons a l ih =>
    rw [findIdx_cons, findIdx_cons, same a mem_cons_self,
      ih fun b mem => same b (mem_cons_of_mem a mem)]

theorem findIdx_eq_zero_iff : l.findIdx p = 0 ↔ ∀ a, l[0]? = some a → p a = true := by
  cases l with
  | nil => simp
  | cons a l => cases holds : p a <;> simp [findIdx_cons, holds]

theorem findIdx_insertIdx (holds : p a = true) {index : ℕ} (within : index ≤ l.length) :
    (l.insertIdx index a).findIdx p = min index (l.findIdx p) := by
  induction index generalizing l with
  | zero => simp [findIdx_cons, holds]
  | succ index ih =>
    cases l with
    | nil => simp at within
    | cons b l =>
      rw [insertIdx_succ_cons, findIdx_cons, findIdx_cons,
        ih (Nat.le_of_succ_le_succ within)]
      cases p b
      · exact (Nat.add_min_add_right ..).symm
      · simp

theorem findIdx_insertIdx_of_le (fails : p a = false) {index : ℕ} (before : index ≤ l.findIdx p) :
    (l.insertIdx index a).findIdx p = l.findIdx p + 1 := by
  induction index generalizing l with
  | zero => simp [findIdx_cons, fails]
  | succ index ih =>
    cases l with
    | nil => simp at before
    | cons b l =>
      cases holds : p b with
      | true => simp [findIdx_cons, holds] at before
      | false =>
        rw [findIdx_cons, holds] at before
        simp only [insertIdx_succ_cons, findIdx_cons, holds, cond_false,
          ih (Nat.le_of_succ_le_succ before)]

/-- Erasing before the first hit moves it, erasing behind it does not. -/
theorem findIdx_eraseIdx_of_ne {index : ℕ} (other : index ≠ l.findIdx p) :
    (l.eraseIdx index).findIdx p =
      if index < l.findIdx p then l.findIdx p - 1 else l.findIdx p := by
  induction l generalizing index with
  | nil => simp
  | cons a l ih =>
    cases holds : p a with
    | true =>
      obtain ⟨index, rfl⟩ := Nat.exists_eq_succ_of_ne_zero (by simpa [findIdx_cons, holds] using other)
      simp [findIdx_cons, holds]
    | false =>
      cases index with
      | zero => simp [findIdx_cons, holds]
      | succ index =>
        have other : index ≠ l.findIdx p := by simpa [findIdx_cons, holds] using other
        simp only [eraseIdx_cons_succ, findIdx_cons, holds, cond_false, ih other]
        split_ifs <;> omega

/-- Erasing the first hit leaves one at its place only if its successor is one. -/
theorem findIdx_eraseIdx_self :
    (l.eraseIdx (l.findIdx p)).findIdx p = l.findIdx p ↔
      ∀ a, l[l.findIdx p + 1]? = some a → p a = true := by
  induction l with
  | nil => simp
  | cons a l ih =>
    cases holds : p a with
    | true => simpa [findIdx_cons, holds] using findIdx_eq_zero_iff
    | false => simpa [findIdx_cons, holds] using ih

theorem findIdx_eq_add_of_le {n : ℕ} (later : n ≤ l.findIdx p) :
    l.findIdx p = n + (l.drop n).findIdx p := by
  induction n generalizing l with
  | zero => simp
  | succ n ih =>
    cases l with
    | nil => simp at later
    | cons a l =>
      cases holds : p a with
      | true => simp [findIdx_cons, holds] at later
      | false =>
        rw [findIdx_cons, holds, cond_false] at later ⊢
        rw [drop_succ_cons, Nat.add_right_comm, ← ih (Nat.le_of_succ_le_succ later)]

theorem map_modify (f : α → α) (g : α → β) (h : β → β) (same : ∀ a, g (f a) = h (g a)) (l : List α)
    (index : ℕ) : (l.modify index f).map g = (l.map g).modify index h := by
  apply ext_getElem?
  intro i
  rw [getElem?_map, getElem?_modify, getElem?_modify, getElem?_map]
  cases l[i]? with
  | none => rfl
  | some a => by_cases here : index = i <;> simp [here, same]

theorem forall₂_modify {R : α → α → Prop} (refl : ∀ a, R a a) {f : α → α} (edited : ∀ a, R (f a) a)
    (l : List α) (index : ℕ) : Forall₂ R (l.modify index f) l := by
  induction l generalizing index with
  | nil => simp
  | cons a l ih =>
    cases index with
    | zero => exact .cons (edited a) (forall₂_same.mpr fun b _ => refl b)
    | succ index => exact .cons (refl a) (ih index)

/-! ### Loops that may fail -/

theorem exists_of_forall₂ {r : List β} (related : Forall₂ R l r) (mem : a ∈ l) : ∃ b, R a b := by
  induction related with
  | nil => cases mem
  | cons head _ ih =>
    rcases mem_cons.mp mem with rfl | mem
    · exact ⟨_, head⟩
    · exact ih mem

theorem forall₂_imp_of_mem {S : α → β → Prop} {r : List β} (step : ∀ a ∈ l, ∀ b, R a b → S a b)
    (related : Forall₂ R l r) : Forall₂ S l r := by
  induction related with
  | nil => exact .nil
  | cons head _ ih =>
    exact .cons (step _ mem_cons_self _ head) (ih fun a mem => step a (mem_cons_of_mem _ mem))

theorem mapM_of_forall₂ {ε : Type*} {S : α → γ → Prop} {f : β → Except ε γ} {as : List α}
    (all : Forall₂ R as bs) (each : ∀ a b, R a b → ∃ c, f b = .ok c ∧ S a c) :
    ∃ cs, bs.mapM f = .ok cs ∧ Forall₂ S as cs := by
  induction all with
  | nil => exact ⟨[], rfl, .nil⟩
  | @cons a b as bs related _ ih =>
    obtain ⟨c, first, holds⟩ := each a b related
    obtain ⟨cs, rest, later⟩ := ih
    refine ⟨c :: cs, ?_, .cons holds later⟩
    rw [mapM_cons, first]
    rw [rest]
    rfl

/-- What each step makes of what has been gone through holds of the whole list at the end. -/
theorem foldlM_prefix {σ ε : Type*} {f : σ → α → Except ε σ} {P : List α → σ → Prop} (l : List α)
    (step : ∀ done a rest s, done ++ a :: rest = l → P done s → ∃ s', f s a = .ok s' ∧ P (done ++ [a]) s')
    {s : σ} (start : P [] s) : ∃ s', l.foldlM f s = .ok s' ∧ P l s' := by
  suffices ∀ rest done s, done ++ rest = l → P done s → ∃ s', rest.foldlM f s = .ok s' ∧ P l s' from
    this l [] s rfl start
  intro rest
  induction rest with
  | nil =>
    intro done s split holds
    rw [append_nil] at split
    exact ⟨s, rfl, split ▸ holds⟩
  | cons a rest ih =>
    intro done s split holds
    obtain ⟨s₁, first, holds₁⟩ := step done a rest s split holds
    obtain ⟨s', later, holds'⟩ := ih (done ++ [a]) s₁ (by rw [append_assoc, singleton_append, split]) holds₁
    refine ⟨s', ?_, holds'⟩
    rw [foldlM_cons, first]
    exact later

/-- A fold that may fail and a fold that cannot, step by step on related states. -/
theorem foldlM_eq_some_foldl {f : β → α → Option β} {g : γ → α → γ} {encode : γ → β} {P : γ → Prop}
    {c : γ} (start : P c)
    (step : ∀ a ∈ l, ∀ c, P c → f (encode c) a = some (encode (g c a)) ∧ P (g c a)) :
    l.foldlM f (encode c) = some (encode (l.foldl g c)) ∧ P (l.foldl g c) := by
  induction l generalizing c with
  | nil => exact ⟨rfl, start⟩
  | cons a l ih =>
    obtain ⟨first, kept⟩ := step a mem_cons_self c start
    rw [foldlM_cons, first]
    exact ih kept fun b mem => step b (mem_cons_of_mem a mem)

/-- An invariant of a fold over the elements with their positions. -/
theorem foldl_zipIdx_rec {f : β → α × ℕ → β} {P : ℕ → β → Prop} (l : List α) (k : ℕ) {b : β}
    (start : P k b) (step : ∀ i a b, l[i]? = some a → P (k + i) b → P (k + i + 1) (f b (a, k + i))) :
    P (k + l.length) ((l.zipIdx k).foldl f b) := by
  induction l generalizing k b with
  | nil => exact start
  | cons a l ih =>
    rw [length_cons, ← Nat.add_assoc, Nat.add_right_comm]
    refine ih (k + 1) (step 0 a b rfl start) fun i c b' found holds => ?_
    have shifted := step (i + 1) c b' found
    rw [← Nat.add_assoc, Nat.add_right_comm] at shifted
    exact shifted holds

/-- What is known of a fold that may fail when it did not. -/
theorem eq_foldl_of_foldlM_eq_some {f : β → α → Option β} {g : γ → α → γ} {encode : γ → β}
    {P : γ → Prop} {c : γ} {b : β} (start : P c)
    (step : ∀ a ∈ l, ∀ c, P c → ∀ b, f (encode c) a = some b → b = encode (g c a) ∧ P (g c a))
    (ran : l.foldlM f (encode c) = some b) : b = encode (l.foldl g c) ∧ P (l.foldl g c) := by
  induction l generalizing c with
  | nil => exact ⟨(some.inj ran).symm, start⟩
  | cons a l ih =>
    rw [foldlM_cons, bind_eq_bind, bind_eq_some_iff] at ran
    obtain ⟨next, first, rest⟩ := ran
    obtain ⟨rfl, kept⟩ := step a mem_cons_self c start next first
    exact ih kept (fun b mem => step b (mem_cons_of_mem a mem)) rest

theorem forall₂_of_mapM_eq_some {f : α → Option β} (mapped : l.mapM f = some bs) :
    Forall₂ (fun a b => f a = some b) l bs := by
  induction l generalizing bs with
  | nil =>
    obtain rfl : [] = bs := some.inj mapped
    exact .nil
  | cons a l ih =>
    rw [mapM_cons, bind_eq_bind, bind_eq_some_iff] at mapped
    obtain ⟨b, first, rest⟩ := mapped
    rw [bind_eq_bind, bind_eq_some_iff] at rest
    obtain ⟨others, found, listed⟩ := rest
    rw [← some.inj listed]
    exact .cons first (ih found)

theorem length_of_mapM_eq_some {f : α → Option β} (mapped : l.mapM f = some bs) :
    bs.length = l.length :=
  (forall₂_of_mapM_eq_some mapped).length_eq.symm

/-- In a list in which nothing follows a hit but hits, the hits are at the front. -/
theorem filter_take_of_pairwise (sorted : l.Pairwise fun a b => p b = true → p a = true) (n : ℕ) :
    (l.take n).filter p = (l.filter p).take n := by
  induction l generalizing n with
  | nil => simp
  | cons a l ih =>
    obtain ⟨first, rest⟩ := pairwise_cons.mp sorted
    cases n with
    | zero => simp
    | succ n =>
      cases hit : p a with
      | true => simp [hit, ih rest]
      | false =>
        have none : l.filter p = [] := filter_eq_nil_iff.mpr fun b mem found => by
          rw [first b mem found] at hit
          cases hit
        simp [hit, none, ih rest]

/-- A set that takes in new elements grows by as many. -/
theorem card_add_length_le [DecidableEq α] {s t : Finset α} (grows : s ⊆ t) (nodup : l.Nodup)
    (new : ∀ a ∈ l, a ∉ s ∧ a ∈ t) : s.card + l.length ≤ t.card := by
  have apart := Finset.disjoint_right.mpr fun a (mem : a ∈ l.toFinset) =>
    (new a (mem_toFinset.mp mem)).1
  rw [← toFinset_card_of_nodup nodup, ← Finset.card_union_of_disjoint apart]
  refine Finset.card_le_card (Finset.union_subset grows fun a mem => ?_)
  exact (new a (mem_toFinset.mp mem)).2

end List
