import TypeAlgebra.Tree.Reader
import Mathlib.Data.List.TakeWhile

namespace TypeAlgebra

structure IsWord (text : String) : Prop where
  nonempty : text.toList ≠ []
  solid : ∀ c ∈ text.toList, Token.isDelimiter c = false

theorem isWord_iff {text : String} :
    IsWord text ↔ text.toList ≠ [] ∧ text.toList.all (!Token.isDelimiter ·) = true := by
  simp only [List.all_eq_true, Bool.not_eq_true']
  exact ⟨fun h ↦ ⟨h.nonempty, h.solid⟩, fun h ↦ ⟨h.1, h.2⟩⟩

instance (text : String) : Decidable (IsWord text) :=
  decidable_of_iff _ isWord_iff.symm

namespace Token

variable {c : Char} {cs rest : List Char}

def Breaks (rest : List Char) : Prop :=
  ∀ c cs, rest = c :: cs → isDelimiter c = true

theorem breaks_cons (h : isDelimiter c = true) : Breaks (c :: cs) := by
  rintro _ _ ⟨⟩
  exact h

theorem isDelimiter_eq_false_iff :
    isDelimiter c = false ↔
      Text.isBlank c = false ∧ c ≠ '(' ∧ c ≠ ')' ∧ c ≠ '[' ∧ c ≠ ']' ∧ c ≠ '"' ∧ c ≠ ';' := by
  simp only [isDelimiter, Bool.or_eq_false_iff, decide_eq_false_iff_not, List.mem_cons, List.not_mem_nil,
    or_false, not_or]
  exact and_comm

theorem span_word (hcs : ∀ c ∈ cs, isDelimiter c = false) (hr : Breaks rest) :
    (cs ++ rest).takeWhile (!isDelimiter ·) = cs ∧ (cs ++ rest).dropWhile (!isDelimiter ·) = rest := by
  have hall : ∀ c ∈ cs, (!isDelimiter c) = true := fun c hc ↦ by rw [hcs c hc]; rfl
  have hstop : rest.takeWhile (!isDelimiter ·) = [] ∧ rest.dropWhile (!isDelimiter ·) = rest := by
    cases rest with
    | nil => exact ⟨rfl, rfl⟩
    | cons c cs =>
      have hc := hr c cs rfl
      exact ⟨List.takeWhile_cons_of_neg (by simp [hc]), List.dropWhile_cons_of_neg (by simp [hc])⟩
  rw [List.takeWhile_append_of_pos hall, List.dropWhile_append_of_pos hall, hstop.1, hstop.2]
  exact ⟨List.append_nil cs, rfl⟩

theorem scan_word {text : String} (h : IsWord text) (hr : Breaks rest) (offset : Nat) :
    scan offset (text.toList ++ rest) =
      ⟨offset, .atom text⟩ :: scan (offset + text.toList.length) rest := by
  cases ht : text.toList with
  | nil => exact absurd ht h.nonempty
  | cons c cs =>
    have hd := h.solid
    rw [ht] at hd
    obtain ⟨h₁, h₂, h₃, h₄, h₅, h₆, h₇⟩ := isDelimiter_eq_false_iff.1 (hd c List.mem_cons_self)
    obtain ⟨htake, hdrop⟩ := span_word (fun c hc ↦ hd c (List.mem_cons_of_mem _ hc)) hr
    rw [List.cons_append, scan, if_neg (by simp [h₁]), if_neg h₇, if_neg h₂, if_neg h₄, if_neg h₃, if_neg h₅,
      if_neg h₆]
    have htext : String.ofList (c :: cs) = text := by rw [← ht, String.ofList_toList]
    simp only [htake, hdrop]
    rw [htext, List.length_cons, Nat.add_assoc, Nat.add_comm 1]

theorem scan_opening (offset : Nat) :
    scan offset ('(' :: rest) = ⟨offset, .opening .round⟩ :: scan (offset + 1) rest := by
  rw [scan, if_neg (by decide), if_neg (by decide), if_pos rfl]

theorem scan_closing (offset : Nat) :
    scan offset (')' :: rest) = ⟨offset, .closing .round⟩ :: scan (offset + 1) rest := by
  rw [scan, if_neg (by decide), if_neg (by decide), if_neg (by decide), if_neg (by decide), if_pos rfl]

theorem scan_space (offset : Nat) : scan offset (' ' :: rest) = scan (offset + 1) rest := by
  rw [scan, if_pos (by decide)]

end Token

namespace Tree

inductive Legible : Tree → Prop
  | atom {text : String} : IsWord text → Legible (.atom text)
  | group {items : List Tree} : (∀ tree ∈ items, Legible tree) → Legible (.group items)

theorem format_cons_cons (first second : Tree) (trees : List Tree) :
    (format (first :: second :: trees)).toList =
      first.print.toList ++ ' ' :: (format (second :: trees)).toList := by
  rw [format, printEach, printEach, String.intercalate_cons_cons, String.toList_append,
    String.toList_append, List.append_assoc]
  rfl

theorem format_singleton (tree : Tree) : format [tree] = tree.print := by
  rw [format, printEach, printEach, String.intercalate_singleton]

theorem print_group (items : List Tree) :
    (group items).print.toList = '(' :: ((format items).toList ++ [')']) := by
  rw [print, String.toList_append, String.toList_append]
  rfl

namespace Reading

/-- A reading within a group: some items of the innermost group, and what stands around it. -/
def within (bracket : Bracket) (start : Nat) (items : List Tree) (outer : List OpenGroup) : Reading :=
  ⟨⟨⟨bracket, start, items⟩ :: outer⟩, []⟩

def Reads (tree : Tree) : Prop :=
  ∀ (groups : List OpenGroup) (offset : Nat) (rest : List Char), Token.Breaks rest →
    ∃ offset', run true ⟨⟨groups⟩, []⟩ (Token.scan offset (tree.print.toList ++ rest)) =
      run true (add ⟨⟨groups⟩, []⟩ tree) (Token.scan offset' rest)

theorem reads_items {items : List Tree} (h : ∀ tree ∈ items, Reads tree) (bracket : Bracket) (start : Nat)
    (found : List Tree) (outer : List OpenGroup) (offset : Nat) (rest : List Char) :
    ∃ offset', run true (within bracket start found outer)
        (Token.scan offset ((format items).toList ++ ')' :: rest)) =
      run true (within bracket start (found ++ items) outer) (Token.scan offset' (')' :: rest)) := by
  induction items generalizing found offset with
  | nil => exact ⟨offset, by rw [List.append_nil]; rfl⟩
  | cons tree items ih =>
    have htree := h tree List.mem_cons_self
    have hitems := ih fun t ht ↦ h t (List.mem_cons_of_mem _ ht)
    cases items with
    | nil =>
      rw [format_singleton]
      exact htree _ offset _ (Token.breaks_cons (by decide))
    | cons next items =>
      rw [format_cons_cons, List.append_assoc]
      obtain ⟨offset₁, h₁⟩ := htree (⟨bracket, start, found⟩ :: outer) offset
        (' ' :: ((format (next :: items)).toList ++ ')' :: rest)) (Token.breaks_cons (by decide))
      obtain ⟨offset₂, h₂⟩ := hitems (found ++ [tree]) (offset₁ + 1)
      refine ⟨offset₂, ?_⟩
      rw [Token.scan_space] at h₁
      rw [List.append_assoc] at h₂
      exact h₁.trans h₂

theorem reads {tree : Tree} (h : tree.Legible) : Reads tree := by
  induction h with
  | atom hw =>
    intro groups offset rest hr
    exact ⟨_, by rw [print, Token.scan_word hw hr]; rfl⟩
  | group _ ih =>
    intro groups offset rest _
    obtain ⟨offset', h⟩ := reads_items ih .round offset [] groups (offset + 1) rest
    refine ⟨offset' + 1, ?_⟩
    rw [print_group, List.cons_append, List.append_assoc, List.singleton_append, Token.scan_opening]
    rw [Token.scan_closing, List.nil_append] at h
    exact h

end Reading

theorem read_print {tree : Tree} (h : tree.Legible) : read tree.print = .ok tree := by
  obtain ⟨offset, hr⟩ := Reading.reads h [] 0 [] nofun
  rw [List.append_nil] at hr
  rw [read, show ({} : Reading) = ⟨⟨[]⟩, []⟩ from rfl, hr, Token.scan]
  rfl

inductive Worded : Tree → Prop
  | atom {text : String} : IsWord text → Worded (.atom text)
  | literal (text : String) : Worded (.literal text)
  | group {items : List Tree} : (∀ tree ∈ items, Worded tree) → Worded (.group items)

end Tree

def Token.Worded (token : Token) : Prop :=
  ∀ text, token = .atom text → IsWord text

theorem Token.scan_worded (offset : Nat) (cs : List Char) :
    ∀ lexeme ∈ scan offset cs, lexeme.token.Worded := by
  fun_induction scan offset cs with
  | case1 => exact nofun
  | case2 _ _ _ _ ih => exact ih
  | case3 _ _ _ ih => exact ih
  | case4 _ _ _ _ ih => exact List.forall_mem_cons.2 ⟨nofun, ih⟩
  | case5 _ _ _ _ _ ih => exact List.forall_mem_cons.2 ⟨nofun, ih⟩
  | case6 _ _ _ _ _ _ ih => exact List.forall_mem_cons.2 ⟨nofun, ih⟩
  | case7 _ _ _ _ _ _ _ ih => exact List.forall_mem_cons.2 ⟨nofun, ih⟩
  | case8 => exact List.forall_mem_singleton.2 nofun
  | case9 _ _ _ _ _ _ _ _ _ _ _ ih => exact List.forall_mem_cons.2 ⟨nofun, ih⟩
  | case10 offset c cs h₁ h₂ h₃ h₄ h₅ h₆ h₇ word ih =>
    refine List.forall_mem_cons.2 ⟨?_, ih⟩
    rintro _ ⟨⟩
    have hword : ∀ d ∈ word, isDelimiter d = false := fun d hd ↦ by
      simpa using List.mem_takeWhile_imp hd
    refine ⟨by rw [String.toList_ofList]; exact nofun, ?_⟩
    rw [String.toList_ofList]
    refine List.forall_mem_cons.2 ⟨isDelimiter_eq_false_iff.2 ?_, hword⟩
    exact ⟨by simpa using h₁, h₃, h₅, h₄, h₆, h₇, h₂⟩

namespace Tree

namespace Reading

structure Worded (reading : Reading) : Prop where
  groups : ∀ g ∈ reading.groups.items, ∀ tree ∈ g.items, tree.Worded
  trees : ∀ tree ∈ reading.trees, tree.Worded

variable {reading next : Reading}

theorem Worded.add {tree : Tree} (h : reading.Worded) (ht : tree.Worded) : (reading.add tree).Worded := by
  obtain ⟨⟨groups⟩, trees⟩ := reading
  cases groups with
  | nil => exact ⟨h.groups, List.forall_mem_append.2 ⟨h.trees, List.forall_mem_singleton.2 ht⟩⟩
  | cons g groups =>
    obtain ⟨hg, hs⟩ := List.forall_mem_cons.1 h.groups
    refine ⟨List.forall_mem_cons.2 ⟨?_, hs⟩, h.trees⟩
    exact List.forall_mem_append.2 ⟨hg, List.forall_mem_singleton.2 ht⟩

theorem Worded.close {bracket : Bracket} (h : reading.Worded) (hc : reading.close bracket = .ok next) :
    next.Worded := by
  obtain ⟨⟨groups⟩, trees⟩ := reading
  cases groups with
  | nil => cases hc
  | cons g groups =>
    obtain ⟨hg, hs⟩ := List.forall_mem_cons.1 h.groups
    rw [Reading.close] at hc
    simp only [Stack.pop?] at hc
    split at hc
    · cases hc
      exact Worded.add ⟨hs, h.trees⟩ (.group hg)
    · cases hc

theorem Worded.step {single : Bool} {lexeme : Lexeme} (h : reading.Worded)
    (hl : lexeme.token.Worded) (hs : reading.step single lexeme = .ok next) : next.Worded := by
  obtain ⟨offset, token⟩ := lexeme
  unfold Reading.step at hs
  split at hs
  · cases hs
  · split at hs
    · cases hs
      exact ⟨List.forall_mem_cons.2 ⟨nofun, h.groups⟩, h.trees⟩
    · exact h.close hs
    · cases hs
      exact h.add (.literal _)
    · next he =>
      cases hs
      exact h.add (.atom (hl _ he))
    · cases hs

theorem Worded.run {single : Bool} {lexemes : List Lexeme} {trees : List Tree} (h : reading.Worded)
    (hl : ∀ lexeme ∈ lexemes, lexeme.token.Worded) (hr : reading.run single lexemes = .ok trees) :
    ∀ tree ∈ trees, tree.Worded := by
  induction lexemes generalizing reading with
  | nil =>
    rw [Reading.run] at hr
    split at hr
    · cases hr
    · cases hr
      exact h.trees
  | cons lexeme rest ih =>
    obtain ⟨hd, hrest⟩ := List.forall_mem_cons.1 hl
    rw [Reading.run] at hr
    split at hr
    · next hs => exact ih (h.step hd hs) hrest hr
    · cases hr

end Reading

theorem Reading.worded_empty : Reading.Worded {} :=
  ⟨nofun, nofun⟩

theorem read_worded {text : String} {tree : Tree} (h : read text = .ok tree) : tree.Worded := by
  rw [read] at h
  split at h
  · next hr =>
    cases h
    exact Reading.worded_empty.run (Token.scan_worded 0 text.toList) hr _ List.mem_cons_self
  · cases h
  · cases h

theorem readAll_worded {text : String} {trees : List Tree} (h : readAll text = .ok trees) :
    ∀ tree ∈ trees, tree.Worded := by
  rw [readAll] at h
  split at h
  · next hr =>
    cases h
    exact Reading.worded_empty.run (Token.scan_worded 0 text.toList) hr
  · cases h

end Tree

end TypeAlgebra
