import Mathlib.Algebra.BigOperators.Group.List.Basic
import TermRewriting.Proofs.Search.Enumeration

/-! Ordered partitions of positions into blocks. Choosing a block, then a block of what is left, and
so on, goes through all of them in a fixed order: the first blocks decide, and of two blocks the
shorter one is earlier, or the one that is smaller at the first position where they differ. -/

namespace TermRewriting

/-- The positions are distributed among the blocks, none of which is empty. -/
structure IsPartition (positions : List Nat) (blocks : List (List Nat)) : Prop where
  nonempty : ∀ block ∈ blocks, block ≠ []
  ascending : ∀ block ∈ blocks, block.Pairwise (· < ·)
  perm : blocks.flatten.Perm positions

def BlockEarlier (block other : List Nat) : Prop :=
  block.length < other.length ∨ block.length = other.length ∧ List.Lex (· < ·) block other

def PartitionEarlier (blocks others : List (List Nat)) : Prop := List.Lex BlockEarlier blocks others

/-- The partitions into so many blocks, the earlier ones first. -/
def partitions : Nat → List Nat → List (List (List Nat))
  | 0, positions => if positions.isEmpty then [[]] else []
  | count + 1, positions =>
    (List.range' 1 positions.length).flatMap fun size =>
      (Search.choose (fun _ => true) positions size).values.flatMap fun (block, rest) =>
        (partitions count rest).map (block :: ·)

theorem ne_of_lex {α : Type} {r : α → α → Prop} (ne : ∀ a b, r a b → a ≠ b) {xs ys : List α}
    (h : List.Lex r xs ys) : xs ≠ ys := by
  induction h with
  | nil => simp
  | rel earlier => simp [ne _ _ earlier]
  | cons _ ih => simpa using ih

theorem BlockEarlier.ne {block other : List Nat} (h : BlockEarlier block other) : block ≠ other := by
  rcases h with shorter | ⟨-, smaller⟩
  · rintro rfl
    exact Nat.lt_irrefl _ shorter
  · exact ne_of_lex (fun _ _ => Nat.ne_of_lt) smaller

theorem PartitionEarlier.ne {blocks others : List (List Nat)} (h : PartitionEarlier blocks others) :
    blocks ≠ others := ne_of_lex (fun _ _ => BlockEarlier.ne) h

variable {positions : List Nat} {blocks : List (List Nat)}

theorem IsPartition.length_le (h : IsPartition positions blocks) : blocks.length ≤ positions.length := by
  have positive : ∀ n ∈ blocks.map List.length, 1 ≤ n := by
    intro n member
    obtain ⟨block, inBlocks, rfl⟩ := List.mem_map.mp member
    exact List.length_pos_iff.mpr (h.nonempty block inBlocks)
  calc blocks.length
    _ = (blocks.map List.length).length := List.length_map _ |>.symm
    _ ≤ (blocks.map List.length).sum := List.length_le_sum_of_one_le _ positive
    _ = blocks.flatten.length := List.length_flatten.symm
    _ = positions.length := h.perm.length_eq

theorem eq_of_perm_of_ascending {xs ys : List Nat} (hx : xs.Pairwise (· < ·)) (hy : ys.Pairwise (· < ·))
    (perm : xs.Perm ys) : xs = ys := by
  refine perm.eq_of_pairwise (fun a b _ _ less greater => ?_) hx hy
  omega

theorem isPartition_cons {block : List Nat} :
    IsPartition positions (block :: blocks) ↔
      block ≠ [] ∧ block.Pairwise (· < ·) ∧ (∀ b ∈ blocks, b ≠ []) ∧
        (∀ b ∈ blocks, b.Pairwise (· < ·)) ∧ (block ++ blocks.flatten).Perm positions := by
  constructor
  · rintro ⟨nonempty, ascending, perm⟩
    exact ⟨nonempty _ (by simp), ascending _ (by simp), fun b h => nonempty b (by simp [h]),
      fun b h => ascending b (by simp [h]), by simpa using perm⟩
  · rintro ⟨first, firstAscending, nonempty, ascending, perm⟩
    exact ⟨by simpa using ⟨first, nonempty⟩, by simpa using ⟨firstAscending, ascending⟩, by simpa using perm⟩

theorem mem_partitions {count : Nat} (ascending : positions.Pairwise (· < ·)) :
    blocks ∈ partitions count positions ↔ blocks.length = count ∧ IsPartition positions blocks := by
  induction count generalizing positions blocks with
  | zero =>
    cases positions with
    | nil =>
      simp only [partitions, List.isEmpty_nil, if_true, List.mem_singleton, List.length_eq_zero_iff]
      constructor
      · rintro rfl
        exact ⟨rfl, by simp, by simp, .refl _⟩
      · exact And.left
    | cons p positions =>
      simp only [partitions, List.isEmpty_cons, Bool.false_eq_true, if_false, List.not_mem_nil, false_iff]
      rintro ⟨length, -, -, perm⟩
      rw [List.length_eq_zero_iff.mp length] at perm
      simpa using perm.length_eq
  | succ count ih =>
    simp only [partitions, List.mem_flatMap, List.mem_range'_1, List.mem_map, Prod.exists]
    constructor
    · rintro ⟨size, ⟨positive, -⟩, block, rest, chosen, others, later, rfl⟩
      obtain ⟨perm, length, sub⟩ := Search.perm_of_mem_choose chosen
      obtain ⟨lengthLater, nonempty, ascendingLater, permLater⟩ := (ih (ascending.sublist sub)).mp later
      refine ⟨by simp [lengthLater], isPartition_cons.mpr ⟨?_, ?_, nonempty, ascendingLater, ?_⟩⟩
      · rintro rfl
        simp at length
        omega
      · exact ascending.sublist (Search.sublist_of_mem_choose chosen).1
      · exact (permLater.append_left block).trans perm
    · rintro ⟨length, isPartition⟩
      obtain ⟨block, others, rfl⟩ := List.exists_cons_of_length_eq_add_one length
      obtain ⟨first, ascendingFirst, nonempty, ascendingLater, perm⟩ := isPartition_cons.mp isPartition
      obtain ⟨chosen, rest, found, permChosen, permRest⟩ : ∃ chosen rest,
          (chosen, rest) ∈ (Search.choose (fun _ => true) positions block.length).values ∧
            chosen.Perm block ∧ rest.Perm others.flatten :=
        Search.mem_choose_of_perm perm fun _ _ => rfl
      have sub := (Search.perm_of_mem_choose found).2.2
      obtain rfl : chosen = block := eq_of_perm_of_ascending
        (ascending.sublist (Search.sublist_of_mem_choose found).1) ascendingFirst permChosen
      have later : others ∈ partitions count rest :=
        (ih (ascending.sublist sub)).mpr
          ⟨by simpa using length, nonempty, ascendingLater, permRest.symm⟩
      have bound := perm.length_eq
      rw [List.length_append] at bound
      exact ⟨chosen.length, ⟨List.length_pos_iff.mpr first, by omega⟩, chosen, rest, found, others, later, rfl⟩

/-- Each partition is there once, and the earlier ones come first. -/
theorem pairwise_partitions (ascending : positions.Pairwise (· < ·)) (count : Nat) :
    (partitions count positions).Pairwise PartitionEarlier := by
  induction count generalizing positions with
  | zero =>
    unfold partitions
    split <;> simp
  | succ count ih =>
    rw [partitions, List.pairwise_flatMap]
    constructor
    · intro size _
      rw [List.pairwise_flatMap]
      constructor
      · rintro ⟨block, rest⟩ chosen
        obtain ⟨-, -, sub⟩ := Search.perm_of_mem_choose chosen
        exact List.pairwise_map.mpr ((ih (ascending.sublist sub)).imp .cons)
      · refine (Search.pairwise_choose ascending size).imp_of_mem ?_
        rintro ⟨block, rest⟩ ⟨block', rest'⟩ chosen chosen' earlier blocks inBlocks blocks' inBlocks'
        obtain ⟨_, _, rfl⟩ := List.mem_map.mp inBlocks
        obtain ⟨_, _, rfl⟩ := List.mem_map.mp inBlocks'
        have length := (Search.perm_of_mem_choose chosen).2.1
        have length' := (Search.perm_of_mem_choose chosen').2.1
        exact .rel (.inr ⟨length.trans length'.symm, earlier⟩)
    · refine (List.pairwise_lt_range' 1).imp ?_
      intro size size' less blocks inBlocks blocks' inBlocks'
      obtain ⟨⟨block, rest⟩, chosen, inBlocks⟩ := List.mem_flatMap.mp inBlocks
      obtain ⟨⟨block', rest'⟩, chosen', inBlocks'⟩ := List.mem_flatMap.mp inBlocks'
      obtain ⟨_, _, rfl⟩ := List.mem_map.mp inBlocks
      obtain ⟨_, _, rfl⟩ := List.mem_map.mp inBlocks'
      have length := (Search.perm_of_mem_choose chosen).2.1
      have length' := (Search.perm_of_mem_choose chosen').2.1
      exact .rel (.inl (by omega))

example : partitions 2 [0, 1, 2] =
    [[[0], [1, 2]], [[1], [0, 2]], [[2], [0, 1]], [[0, 1], [2]], [[0, 2], [1]], [[1, 2], [0]]] := by decide

end TermRewriting
