import DiskAnn.Data.List
import DiskAnn.LabelFilter.Json

/-! # JSON pointers

A pointer of RFC 6901 is a list of tokens, each behind a slash. In a token `~1` stands for a slash and
`~0` for a tilde. Tokens that are written as they are can be read back if they have neither.
-/

namespace DiskAnn.LabelFilter

open List

/-! ## Texts -/

/-- A token as it is meant. -/
def unescape : List Char → Option (List Char)
  | [] => some []
  | '~' :: '0' :: cs => (unescape cs).map ('~' :: ·)
  | '~' :: '1' :: cs => (unescape cs).map ('/' :: ·)
  | '~' :: _ => none
  | c :: cs => (unescape cs).map (c :: ·)

/-- The tokens of a pointer. -/
def parsePointer (pointer : String) : Option (List String) :=
  match pointer.toList with
  | [] => some []
  | '/' :: cs => (cs.splitOn '/').mapM fun token => (unescape token).map String.ofList
  | _ => none

/-- Tokens behind a separator each, as they are. -/
def joined (separator : String) (tokens : List String) : String :=
  tokens.foldr (fun token rest => separator ++ token ++ rest) ""

theorem unescape_cons {c : Char} (plain : c ≠ '~') (cs : List Char) :
    unescape (c :: cs) = (unescape cs).map (c :: ·) := by
  rw [unescape]
  · exact fun _ same => absurd same plain
  · exact fun _ same => absurd same plain
  · exact plain

theorem unescape_of_not_mem {cs : List Char} (plain : '~' ∉ cs) : unescape cs = some cs := by
  induction cs with
  | nil => rfl
  | cons c cs ih =>
    have first : c ≠ '~' := fun same => plain (same ▸ mem_cons_self)
    rw [unescape_cons first, ih fun mem => plain (mem_cons_of_mem _ mem)]
    rfl

/-- Reading a token makes it shorter where there is an escape. -/
theorem length_unescape {cs token : List Char} (read : unescape cs = some token) :
    token.length + cs.count '~' = cs.length := by
  induction cs using unescape.induct generalizing token with
  | case1 =>
    cases read
    rfl
  | case2 cs ih =>
    rw [unescape, Option.map_eq_some_iff] at read
    obtain ⟨rest, read, rfl⟩ := read
    have length := ih read
    simp
    omega
  | case3 cs ih =>
    rw [unescape, Option.map_eq_some_iff] at read
    obtain ⟨rest, read, rfl⟩ := read
    have length := ih read
    simp
    omega
  | case4 cs zero one =>
    rw [unescape] at read
    · cases read
    · exact zero
    · exact one
  | case5 c cs _ _ plain ih =>
    rw [unescape_cons plain, Option.map_eq_some_iff] at read
    obtain ⟨rest, read, rfl⟩ := read
    have length := ih read
    rw [count_cons_of_ne plain]
    simp
    omega

theorem not_mem_of_mem_splitOn {cs part : List Char} (mem : part ∈ cs.splitOn '/') : '/' ∉ part := by
  induction cs generalizing part with
  | nil =>
    rw [splitOn_nil, mem_singleton] at mem
    simp [mem]
  | cons c cs ih =>
    rw [splitOn_eq_splitOnP, splitOnP_cons_eq_if_modifyHead, ← splitOn_eq_splitOnP] at mem
    split at mem <;> rename_i slash
    · rcases mem_cons.mp mem with rfl | mem
      · simp
      · exact ih mem
    · obtain ⟨first, rest, parts⟩ := exists_cons_of_ne_nil (splitOn_ne_nil '/' cs)
      rw [parts] at mem
      rcases mem_cons.mp mem with rfl | mem
      · have before := ih (parts ▸ mem_cons_self)
        simp only [beq_iff_eq] at slash
        simp [before, Ne.symm slash]
      · exact ih (parts ▸ mem_cons_of_mem _ mem)

theorem toList_joined_slash (token : String) (tokens : List String) :
    (joined "/" (token :: tokens)).toList =
      '/' :: ['/'].intercalate ((token :: tokens).map String.toList) := by
  induction tokens generalizing token with
  | nil => simp [joined]
  | cons next tokens ih =>
    have rest := ih next
    rw [joined, foldr_cons, ← joined, String.toList_append, rest]
    simp

theorem length_intercalate_slash (part : List Char) (parts : List (List Char)) :
    (['/'].intercalate (part :: parts)).length =
      ((part :: parts).map length).sum + parts.length := by
  induction parts generalizing part with
  | nil => simp
  | cons next parts ih =>
    rw [intercalate_cons_cons, length_append, ih]
    simp
    omega

section Tokens

variable {parts : List (List Char)} {tokens : List String}

theorem length_of_read {part : List Char} {token : String}
    (read : (unescape part).map String.ofList = some token) :
    unescape part = some token.toList ∧ token.toList.length + part.count '~' = part.length := by
  obtain ⟨chars, unescaped, rfl⟩ := Option.map_eq_some_iff.mp read
  rw [String.toList_ofList]
  exact ⟨unescaped, length_unescape unescaped⟩

variable (read : Forall₂ (fun part token => (unescape part).map String.ofList = some token) parts tokens)
include read

theorem sum_length_le :
    ((tokens.map String.toList).map length).sum ≤ (parts.map length).sum := by
  induction read with
  | nil => exact Nat.le_refl _
  | cons first _ ih =>
    have length := (length_of_read first).2
    simp only [map_cons, sum_cons]
    omega

/-- Parts that are no longer in all than the tokens they stand for are these tokens. -/
theorem eq_of_unescape (short : (parts.map length).sum ≤ ((tokens.map String.toList).map length).sum) :
    parts = tokens.map String.toList ∧ ∀ part ∈ parts, '~' ∉ part := by
  induction read with
  | nil => exact ⟨rfl, by simp⟩
  | @cons part token parts tokens first rest ih =>
    obtain ⟨unescaped, length⟩ := length_of_read first
    have others := sum_length_le rest
    simp only [map_cons, sum_cons] at short
    obtain ⟨same, plain⟩ := ih (by omega)
    have tilde : '~' ∉ part := count_eq_zero.mp (by omega)
    rw [unescape_of_not_mem tilde] at unescaped
    refine ⟨?_, ?_⟩
    · rw [map_cons, ← same, Option.some.inj unescaped]
    · rintro other (_ | ⟨_, mem⟩)
      · exact tilde
      · exact plain other mem

omit read

theorem mapM_unescape (plain : ∀ token ∈ tokens, '~' ∉ token.toList) :
    (tokens.map String.toList).mapM (fun part => (unescape part).map String.ofList) = some tokens := by
  induction tokens with
  | nil => rfl
  | cons token tokens ih =>
    rw [map_cons, mapM_cons, unescape_of_not_mem (plain token mem_cons_self),
      ih fun other listed => plain other (mem_cons_of_mem _ listed)]
    simp

end Tokens

/-- Tokens that are joined as they are can be read back if they have no slash and no tilde. -/
theorem parsePointer_joined_iff (tokens : List String) :
    parsePointer (joined "/" tokens) = some tokens ↔
      ∀ token ∈ tokens, '/' ∉ token.toList ∧ '~' ∉ token.toList := by
  cases tokens with
  | nil => exact iff_of_true rfl (by simp)
  | cons token tokens =>
    simp only [parsePointer, toList_joined_slash]
    constructor
    · intro mapped
      have read := forall₂_of_mapM_eq_some mapped
      have joint : ['/'].intercalate ((['/'].intercalate ((token :: tokens).map String.toList)).splitOn
          '/') = ['/'].intercalate ((token :: tokens).map String.toList) := intercalate_splitOn '/'
      have slash : ∀ part ∈ (['/'].intercalate ((token :: tokens).map String.toList)).splitOn '/',
          '/' ∉ part := fun _ => not_mem_of_mem_splitOn
      generalize (['/'].intercalate ((token :: tokens).map String.toList)).splitOn '/' = split at *
      obtain ⟨part, parts, rfl⟩ := exists_of_length_succ split read.length_eq
      have length := congrArg length joint
      rw [map_cons, length_intercalate_slash, length_intercalate_slash, length_map] at length
      have count := read.length_eq
      simp only [length_cons] at count
      obtain ⟨same, tilde⟩ := eq_of_unescape read (by
        simp only [map_cons] at length ⊢
        omega)
      intro token listed
      have mem : token.toList ∈ part :: parts := same ▸ mem_map_of_mem listed
      exact ⟨slash _ mem, tilde _ mem⟩
    · intro plain
      rw [splitOn_intercalate]
      · exact mapM_unescape fun token listed => (plain token listed).2
      · intro part mem
        obtain ⟨token, listed, rfl⟩ := mem_map.mp mem
        exact (plain token listed).1
      · simp

end DiskAnn.LabelFilter
