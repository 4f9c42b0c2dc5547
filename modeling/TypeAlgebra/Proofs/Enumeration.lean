import TypeAlgebra.Sequence.Choice
import Mathlib.Algebra.BigOperators.Ring.List
import Mathlib.Algebra.Module.NatInt

namespace TypeAlgebra

namespace MixedRadix

variable {sizes digits : List Nat} {k : Nat}

/-- The number with these digits: a digit counts the numbers that all places after it can show together. -/
def value : (sizes digits : List Nat) → Nat
  | _ :: sizes, digit :: digits => digit * sizes.prod + value sizes digits
  | _, _ => 0

def digitsOf : (sizes : List Nat) → (k : Nat) → List Nat
  | [], _ => []
  | _ :: sizes, k => k / sizes.prod :: digitsOf sizes (k % sizes.prod)

structure Represents (sizes digits : List Nat) (k : Nat) : Prop where
  below : List.Forall₂ (· < ·) digits sizes
  value_eq : value sizes digits = k

theorem value_lt (h : List.Forall₂ (· < ·) digits sizes) : value sizes digits < sizes.prod := by
  induction h with
  | nil => simp [value]
  | @cons digit size digits sizes hdigit _ ih =>
    calc digit * sizes.prod + value sizes digits
      _ < digit * sizes.prod + sizes.prod := Nat.add_lt_add_left ih _
      _ = (digit + 1) * sizes.prod := (Nat.succ_mul _ _).symm
      _ ≤ size * sizes.prod := Nat.mul_le_mul_right _ hdigit
      _ = (size :: sizes).prod := List.prod_cons.symm

/-- A number that the places can show at all tells that each of them has a digit. -/
theorem represents_digitsOf (h : k < sizes.prod) : Represents sizes (digitsOf sizes k) k := by
  induction sizes generalizing k with
  | nil =>
    have hk : k = 0 := by simpa using h
    exact ⟨.nil, hk.symm⟩
  | cons size sizes ih =>
    rw [List.prod_cons] at h
    have hpos : 0 < sizes.prod := Nat.pos_of_lt_mul_left h
    obtain ⟨hbelow, hvalue⟩ := ih (Nat.mod_lt k hpos)
    refine ⟨.cons ((Nat.div_lt_iff_lt_mul hpos).2 h) hbelow, ?_⟩
    rw [digitsOf, value, hvalue, Nat.mul_comm, Nat.div_add_mod]

theorem digitsOf_value (h : List.Forall₂ (· < ·) digits sizes) : digitsOf sizes (value sizes digits) = digits := by
  induction h with
  | nil => rfl
  | @cons digit size digits sizes _ hrest ih =>
    have hlt := value_lt hrest
    have hpos : 0 < sizes.prod := Nat.zero_lt_of_lt hlt
    rw [value, digitsOf, Nat.mul_comm, Nat.mul_add_div hpos, Nat.div_eq_of_lt hlt, Nat.mul_add_mod,
      Nat.mod_eq_of_lt hlt, ih, Nat.add_zero]

theorem lt_prod_iff : k < sizes.prod ↔ ∃! digits, Represents sizes digits k := by
  constructor
  · intro h
    refine ⟨digitsOf sizes k, represents_digitsOf h, ?_⟩
    rintro digits ⟨hbelow, rfl⟩
    exact (digitsOf_value hbelow).symm
  · rintro ⟨digits, ⟨hbelow, rfl⟩, -⟩
    exact value_lt hbelow

end MixedRadix

variable {α β : Type}

def carriedOn (beginnings : List (List α)) (alternatives : List α) : List (List α) :=
  beginnings.flatMap fun beginning ↦ alternatives.map fun a ↦ beginning ++ [a]

theorem foldl_carriedOn (lists beginnings : List (List α)) :
    lists.foldl carriedOn beginnings = beginnings.flatMap fun beginning ↦ (choices lists).map (beginning ++ ·) := by
  induction lists generalizing beginnings with
  | nil => simp [choices]
  | cons list rest ih =>
    rw [List.foldl_cons, ih, choices, carriedOn, List.flatMap_assoc]
    simp [List.flatMap_map, List.map_flatMap, Function.comp_def]

/-- The choices are also made from the front, list by list. -/
theorem choices_eq_foldl (lists : List (List α)) : choices lists = lists.foldl carriedOn [[]] := by
  simp [foldl_carriedOn]

theorem length_choices (lists : List (List α)) : (choices lists).length = (lists.map List.length).prod := by
  induction lists with
  | nil => rfl
  | cons list rest ih =>
    rw [choices, List.length_flatMap]
    simp only [List.length_map, ih, List.map_const', List.sum_replicate, smul_eq_mul, List.map_cons, List.prod_cons]

theorem choices_eq_nil_iff {lists : List (List α)} : choices lists = [] ↔ [] ∈ lists := by
  rw [← List.length_eq_zero_iff, length_choices, List.prod_eq_zero_iff]
  simp

/-- In blocks of one length, the number of the block and the place in it are found by division. -/
theorem getElem?_flatMap_block {f : α → List β} {n place : Nat} (hlength : ∀ a, (f a).length = n) (hplace : place < n)
    (as : List α) (block : Nat) :
    (as.flatMap f)[block * n + place]? = as[block]?.bind fun a ↦ (f a)[place]? := by
  induction as generalizing block with
  | nil => simp
  | cons a as ih =>
    rw [List.flatMap_cons]
    cases block with
    | zero =>
      rw [Nat.zero_mul, Nat.zero_add, List.getElem?_append_left (by rwa [hlength])]
      rfl
    | succ block =>
      have hafter : (block + 1) * n + place = (f a).length + (block * n + place) := by
        rw [hlength, Nat.succ_mul]
        omega
      rw [hafter, List.getElem?_append_right (Nat.le_add_right _ _), Nat.add_sub_cancel_left, ih,
        List.getElem?_cons_succ]

/-- The element of the first list is found by the highest digit, the rest of the choice by what is left. -/
theorem getElem?_choices_cons (list : List α) (rest : List (List α)) (digit : Nat) {k : Nat}
    (hk : k < (rest.map List.length).prod) :
    (choices (list :: rest))[digit * (rest.map List.length).prod + k]? =
      list[digit]?.bind fun a ↦ (choices rest)[k]?.map (a :: ·) := by
  have hlength (a : α) : ((choices rest).map (a :: ·)).length = (rest.map List.length).prod := by
    rw [List.length_map, length_choices]
  rw [choices, getElem?_flatMap_block hlength hk]
  simp only [List.getElem?_map]

structure Picks (lists : List (List α)) (digits : List Nat) (choice : List α) : Prop where
  length_eq : choice.length = lists.length
  entry : ∀ (j : Nat) (list : List α) (digit : Nat), lists[j]? = some list → digits[j]? = some digit →
    choice[j]? = list[digit]?

theorem Picks.cons {list : List α} {lists : List (List α)} {digit : Nat} {digits : List Nat} {a : α} {choice : List α}
    (ha : list[digit]? = some a) (h : Picks lists digits choice) :
    Picks (list :: lists) (digit :: digits) (a :: choice) where
  length_eq := congrArg (· + 1) h.length_eq
  entry j := by
    cases j with
    | zero =>
      rintro _ _ ⟨⟩ ⟨⟩
      exact ha.symm
    | succ j => exact h.entry j

theorem exists_picks {lists : List (List α)} {digits : List Nat}
    (h : List.Forall₂ (· < ·) digits (lists.map List.length)) :
    ∃ choice, (choices lists)[MixedRadix.value (lists.map List.length) digits]? = some choice ∧
      Picks lists digits choice := by
  induction lists generalizing digits with
  | nil =>
    obtain rfl := List.forall₂_nil_right_iff.1 h
    exact ⟨[], rfl, rfl, by simp⟩
  | cons list lists ih =>
    obtain ⟨digit, digits, hdigit, hrest, rfl⟩ := List.forall₂_cons_right_iff.1 h
    obtain ⟨choice, hchoice, hpicks⟩ := ih hrest
    have ha : list[digit]? = some (list.get ⟨digit, hdigit⟩) := List.getElem?_eq_getElem hdigit
    refine ⟨list.get ⟨digit, hdigit⟩ :: choice, ?_, hpicks.cons ha⟩
    rw [List.map_cons, MixedRadix.value, getElem?_choices_cons _ _ _ (MixedRadix.value_lt hrest), hchoice, ha]
    rfl

/--
There are as many choices as the product of the lengths. If the places of a number have the lengths as their sizes, the
numbers below this product are those that have digits, and each has them in one way; at the position with given digits
stands the choice that takes from each list the element at its digit. So no choice is missed, repeated or misplaced. One
empty list leaves no choice, and without lists there is one, which is empty.
-/
theorem choices_enumerated (lists : List (List α)) :
    (choices lists).length = (lists.map List.length).prod ∧
      (∀ k, k < (lists.map List.length).prod ↔
        ∃! digits, MixedRadix.Represents (lists.map List.length) digits k) ∧
      (∀ k digits, MixedRadix.Represents (lists.map List.length) digits k →
        ∃ choice, (choices lists)[k]? = some choice ∧ Picks lists digits choice) ∧
      (choices lists = [] ↔ [] ∈ lists) ∧ choices ([] : List (List α)) = [[]] := by
  refine ⟨length_choices lists, fun k ↦ MixedRadix.lt_prod_iff, ?_, choices_eq_nil_iff, rfl⟩
  rintro k digits ⟨hbelow, rfl⟩
  exact exists_picks hbelow

-- The digits of 9 are 1, 1 and 1 if the places have two, three and two of them: 9 = 1 * 6 + 1 * 2 + 1.
theorem choices_enumerated_nine :
    MixedRadix.Represents [2, 3, 2] [1, 1, 1] 9 ∧
      (choices [["a", "b"], ["c", "d", "e"], ["f", "g"]])[9]? = some ["b", "d", "g"] ∧
      Picks [["a", "b"], ["c", "d", "e"], ["f", "g"]] [1, 1, 1] ["b", "d", "g"] := by
  have hnine : MixedRadix.Represents [2, 3, 2] [1, 1, 1] 9 := ⟨by decide, by decide⟩
  have hat : (choices [["a", "b"], ["c", "d", "e"], ["f", "g"]])[9]? = some ["b", "d", "g"] := rfl
  obtain ⟨choice, hchoice, hpicks⟩ := (choices_enumerated [["a", "b"], ["c", "d", "e"], ["f", "g"]]).2.2.1 9 [1, 1, 1] hnine
  obtain rfl := Option.some.inj (hat.symm.trans hchoice)
  exact ⟨hnine, hat, hpicks⟩

end TypeAlgebra
