import TypeAlgebra.Proofs.Composition

namespace TypeAlgebra

namespace Token

variable {written written' body body' cs : List Char}

theorem Escapes.append (h : Escapes written body) (h' : Escapes written' body') :
    Escapes (written ++ written') (body ++ body') := by
  induction h with
  | nil => exact h'
  | plain hq hb _ ih => exact .plain hq hb ih
  | newline _ ih => exact .newline ih
  | tab _ ih => exact .tab ih
  | escaped hn ht _ ih => exact .escaped hn ht ih

theorem escapes_self (h : ∀ c ∈ cs, c ≠ '"' ∧ c ≠ '\\') : Escapes cs cs := by
  induction cs with
  | nil => exact .nil
  | cons c cs ih =>
    obtain ⟨hc, hcs⟩ := List.forall_mem_cons.1 h
    exact .plain hc.1 hc.2 (ih hcs)

end Token

namespace Text

open TypeAlgebra.Token (Escapes escapes_self)

variable {c letter : Char} {cs : List Char}

/-- The character is printed in a way that reading understands. -/
def Kept (c : Char) : Prop :=
  c = '\n' ∨ c = '\t' ∨ isPrintable c = true

instance (c : Char) : Decidable (Kept c) :=
  inferInstanceAs (Decidable (c = '\n' ∨ c = '\t' ∨ isPrintable c = true))

def reread (c : Char) : List Char :=
  if Kept c then [c] else (escapeChar '"' c).tail

theorem hexDigits_plain (width n : Nat) : ∀ c ∈ hexDigits width n, c ≠ '"' ∧ c ≠ '\\' := by
  have digit : ∀ k < 16, Nat.digitChar k ≠ '"' ∧ Nat.digitChar k ≠ '\\' := by decide
  induction width generalizing n with
  | zero => exact nofun
  | succ width ih =>
    rw [hexDigits]
    exact List.forall_mem_append.2 ⟨ih _, List.forall_mem_singleton.2 (digit _ (Nat.mod_lt n (by decide)))⟩

theorem shortEscape?_of_not_kept (h : ¬Kept c) (hs : shortEscape? c = some letter) :
    letter ≠ 'n' ∧ letter ≠ 't' ∧ letter ≠ c := by
  have hn : c ≠ '\n' := fun he ↦ h (.inl he)
  have ht : c ≠ '\t' := fun he ↦ h (.inr (.inl he))
  unfold shortEscape? at hs
  split at hs <;> cases hs
  all_goals first | decide | exact absurd rfl hn | exact absurd rfl ht

/-- Where a character is not kept, its escape has a letter that is read as it stands, and more of the kind. -/
theorem escapeChar_of_not_kept (h : ¬Kept c) :
    ∃ d ds, escapeChar '"' c = '\\' :: d :: ds ∧ d ≠ 'n' ∧ d ≠ 't' ∧ (∀ e ∈ ds, e ≠ '"' ∧ e ≠ '\\') ∧
      d :: ds ≠ [c] := by
  have hmark : ¬(c = '"' ∨ c = '\\') := by
    rintro (rfl | rfl) <;> exact h (by decide)
  have hprint : ¬isPrintable c = true := fun hp ↦ h (.inr (.inr hp))
  have digits {width n : Nat} {d : Char} : d :: hexDigits (width + 1) n ≠ [c] := by
    simp [hexDigits]
  rw [escapeChar, if_neg hmark, if_neg hprint]
  cases hs : shortEscape? c with
  | some letter =>
    obtain ⟨hn, ht, hne⟩ := shortEscape?_of_not_kept h hs
    exact ⟨letter, [], rfl, hn, ht, nofun, by simpa using hne⟩
  | none =>
    dsimp only
    split_ifs
    · exact ⟨_, _, rfl, by decide, by decide, hexDigits_plain _ _, digits⟩
    · exact ⟨_, _, rfl, by decide, by decide, hexDigits_plain _ _, digits⟩
    · exact ⟨_, _, rfl, by decide, by decide, hexDigits_plain _ _, digits⟩

theorem escapes_char (c : Char) : Escapes (escapeChar '"' c) (reread c) := by
  by_cases h : Kept c
  · rw [reread, if_pos h]
    by_cases hmark : c = '"' ∨ c = '\\'
    · rw [escapeChar, if_pos hmark]
      rcases hmark with rfl | rfl
      · exact .escaped (by decide) (by decide) .nil
      · exact .escaped (by decide) (by decide) .nil
    · rcases h with rfl | rfl | hp
      · rw [show escapeChar '"' '\n' = ['\\', 'n'] by decide +kernel]
        exact .newline .nil
      · rw [show escapeChar '"' '\t' = ['\\', 't'] by decide +kernel]
        exact .tab .nil
      · rw [escapeChar, if_neg hmark, if_pos hp]
        exact escapes_self (List.forall_mem_singleton.2 (not_or.1 hmark))
  · obtain ⟨d, ds, he, hn, ht, hds, -⟩ := escapeChar_of_not_kept h
    rw [reread, if_neg h, he]
    exact .escaped hn ht (escapes_self hds)

theorem escapes_chars (cs : List Char) : Escapes (cs.flatMap (escapeChar '"')) (cs.flatMap reread) := by
  induction cs with
  | nil => exact .nil
  | cons c cs ih =>
    rw [List.flatMap_cons, List.flatMap_cons]
    exact (escapes_char c).append ih

theorem reread_ne_nil (c : Char) : reread c ≠ [] := by
  by_cases h : Kept c
  · rw [reread, if_pos h]
    exact List.cons_ne_nil c []
  · obtain ⟨d, ds, he, -⟩ := escapeChar_of_not_kept h
    rw [reread, if_neg h, he]
    exact List.cons_ne_nil d ds

theorem reread_eq_iff : reread c = [c] ↔ Kept c := by
  refine ⟨fun h ↦ ?_, fun h ↦ by rw [reread, if_pos h]⟩
  by_contra hk
  obtain ⟨d, ds, he, -, -, -, hne⟩ := escapeChar_of_not_kept hk
  rw [reread, if_neg hk, he] at h
  exact hne h

theorem length_le_flatMap_reread (cs : List Char) : cs.length ≤ (cs.flatMap reread).length := by
  induction cs with
  | nil => exact Nat.le_refl 0
  | cons c cs ih =>
    have hpos := List.length_pos_iff.2 (reread_ne_nil c)
    rw [List.flatMap_cons, List.length_append, List.length_cons]
    omega

theorem flatMap_reread_eq_iff : cs.flatMap reread = cs ↔ ∀ c ∈ cs, Kept c := by
  induction cs with
  | nil => exact ⟨nofun, fun _ ↦ rfl⟩
  | cons c cs ih =>
    rw [List.flatMap_cons, List.forall_mem_cons, ← reread_eq_iff, ← ih]
    refine ⟨fun h ↦ ?_, fun h ↦ by rw [h.1, h.2, List.singleton_append]⟩
    -- No character is read as nothing, so that the first one is read as one character.
    obtain ⟨d, ds, hd⟩ := List.exists_cons_of_ne_nil (reread_ne_nil c)
    rw [hd, List.cons_append] at h
    obtain ⟨rfl, hrest⟩ := List.cons.inj h
    have hlength := congrArg List.length hrest
    have hle := length_le_flatMap_reread cs
    rw [List.length_append] at hlength
    obtain rfl : ds = [] := List.eq_nil_of_length_eq_zero (by omega)
    exact ⟨hd, hrest⟩

end Text

namespace Tree

mutual

def reread : Tree → Tree
  | atom text => atom text
  | literal text => literal (.ofList (text.toList.flatMap Text.reread))
  | group items => group (rereadEach items)

def rereadEach : List Tree → List Tree
  | [] => []
  | tree :: trees => tree.reread :: rereadEach trees

end

mutual

def literals : Tree → List String
  | atom _ => []
  | literal text => [text]
  | group items => literalsEach items

def literalsEach : List Tree → List String
  | [] => []
  | tree :: trees => tree.literals ++ literalsEach trees

end

inductive Resembles : List Tree → List Tree → Prop
  | nil : Resembles [] []
  | atom {text : String} {trees trees' : List Tree} : Resembles trees trees' →
      Resembles (.atom text :: trees) (.atom text :: trees')
  | literal {text text' : String} {trees trees' : List Tree} : (text' = text ↔ ∀ c ∈ text.toList, Text.Kept c) →
      Resembles trees trees' → Resembles (.literal text :: trees) (.literal text' :: trees')
  | group {items items' trees trees' : List Tree} : Resembles items items' → Resembles trees trees' →
      Resembles (.group items :: trees) (.group items' :: trees')

variable {tree : Tree} {trees again : List Tree}

theorem Resembles.eq_iff (h : Resembles trees again) :
    again = trees ↔ ∀ text ∈ literalsEach trees, ∀ c ∈ text.toList, Text.Kept c := by
  induction h with
  | nil => exact ⟨nofun, fun _ ↦ rfl⟩
  | atom _ ih => rw [List.cons_inj_right, ih, literalsEach, literals, List.nil_append]
  | literal ht _ ih =>
    rw [List.cons.injEq, literal.injEq, ht, ih, literalsEach, literals, List.singleton_append, List.forall_mem_cons]
  | group _ _ ih₁ ih₂ => rw [List.cons.injEq, group.injEq, ih₁, ih₂, literalsEach, literals, List.forall_mem_append]

theorem literal_eq_iff (text : String) :
    String.ofList (text.toList.flatMap Text.reread) = text ↔ ∀ c ∈ text.toList, Text.Kept c := by
  rw [← Text.flatMap_reread_eq_iff, ← String.toList_inj, String.toList_ofList]

theorem resembles_reread (trees : List Tree) : Resembles trees (rereadEach trees) := by
  match trees with
  | [] => exact .nil
  | .atom text :: trees => exact .atom (resembles_reread trees)
  | .literal text :: trees => exact .literal (literal_eq_iff text) (resembles_reread trees)
  | .group items :: trees => exact .group (resembles_reread items) (resembles_reread trees)
termination_by sizeEach trees
decreasing_by
  all_goals
    simp only [sizeEach, size]
    omega

theorem shows_each (h : ∀ tree ∈ trees, Shows tree.print.toList [tree.reread]) :
    Shows (format trees).toList (rereadEach trees) := by
  refine shows_intercalate ?_
  induction trees with
  | nil => exact .nil
  | cons tree trees ih =>
    obtain ⟨hd, htl⟩ := List.forall_mem_cons.1 h
    exact .cons hd (ih htl)

theorem shows_print (h : tree.Worded) : Shows tree.print.toList [tree.reread] := by
  induction h with
  | atom hw => exact shows_atom hw
  | literal text =>
    rw [print, Text.quoted, String.toList_ofList]
    exact shows_literal (Text.escapes_chars text.toList)
  | group _ ih =>
    rw [print_group]
    exact shows_group (shows_each ih)

/--
Trees that have been read from a text are printed to a text that is read again as trees of the same shape. They are
the same trees exactly if each character of their string literals is a newline, a tab or printable, and
otherwise only the string literals with another character differ.
-/
theorem readAll_format {text : String} (h : readAll text = .ok trees) :
    (readAll (format trees) = .ok trees ↔
        ∀ literal ∈ literalsEach trees, ∀ c ∈ literal.toList, c = '\n' ∨ c = '\t' ∨ Text.isPrintable c = true) ∧
      ∃ again, readAll (format trees) = .ok again ∧ Resembles trees again := by
  have hread : readAll (format trees) = .ok (rereadEach trees) :=
    (shows_each fun tree ht ↦ shows_print (readAll_worded h tree ht)).readAll
  have hlike := resembles_reread trees
  refine ⟨?_, _, hread, hlike⟩
  rw [hread, Except.ok.injEq]
  exact hlike.eq_iff

-- The bell is printed as `\a`, which is read as the letter.
theorem readAll_format_bell :
    readAll "[a\"x\\\"\\n\"] (\"\x07\") ; c" = .ok [.group [.atom "a", .literal "x\"\n"], .group [.literal "\x07"]] ∧
      readAll (format [.group [.atom "a", .literal "x\"\n"], .group [.literal "\x07"]]) ≠
        .ok [.group [.atom "a", .literal "x\"\n"], .group [.literal "\x07"]] := by
  have h : readAll "[a\"x\\\"\\n\"] (\"\x07\") ; c" =
      .ok [.group [.atom "a", .literal "x\"\n"], .group [.literal "\x07"]] := by
    cbv
  refine ⟨h, fun hs ↦ ?_⟩
  exact absurd ((readAll_format h).1.1 hs "\x07" (by decide) '\x07' (by decide)) (by decide +kernel)

end Tree

end TypeAlgebra
