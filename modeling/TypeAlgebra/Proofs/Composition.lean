import TypeAlgebra.Proofs.Grammar
import Mathlib.Data.List.Forall2

namespace TypeAlgebra

namespace Token

variable {cs rest : List Char} {tokens more : List Token}

/-- What follows a text without comments is cut on its own, unless it continues the last atom of the text. -/
theorem Cuts.append (h : Cuts cs tokens) (hc : ';' ∉ cs) (hr : ∀ c ∈ rest.head?, ¬Plain c) (h' : Cuts rest more) :
    Cuts (cs ++ rest) (tokens ++ more) := by
  induction h with
  | done => exact h'
  | blank hb _ ih => exact .blank hb (ih fun hm ↦ hc (List.mem_cons_of_mem _ hm))
  | comment => exact absurd List.mem_cons_self hc
  | opening bracket _ ih => exact .opening bracket (ih fun hm ↦ hc (List.mem_cons_of_mem _ hm))
  | closing bracket _ ih => exact .closing bracket (ih fun hm ↦ hc (List.mem_cons_of_mem _ hm))
  | literal he _ ih =>
    rw [List.cons_append, List.append_assoc, List.cons_append, List.cons_append]
    refine .literal he (ih fun hm ↦ hc ?_)
    exact List.mem_cons_of_mem _ (List.mem_append_right _ (List.mem_cons_of_mem _ hm))
  | @atom word after tokens hne hp ha _ ih =>
    rw [List.append_assoc, List.cons_append]
    refine .atom hne hp ?_ (ih fun hm ↦ hc (List.mem_append_right _ hm))
    cases after with
    | nil => exact hr
    | cons c after => exact ha

theorem not_plain_of_isDelimiter {c : Char} (h : isDelimiter c = true) : ¬Plain c := by
  rw [plain_iff, h]
  exact Bool.noConfusion

end Token

namespace Tree

open TypeAlgebra.Token (Cuts Escapes Plain not_plain_of_isDelimiter)

variable {cs written body : List Char} {tree : Tree} {items trees : List Tree} {text : String}

/-- The text is read as these trees, whatever follows it that does not continue its last atom. -/
def Shows (cs : List Char) (trees : List Tree) : Prop :=
  ∃ tokens, Renders trees tokens ∧ ∀ rest more, (∀ c ∈ rest.head?, ¬Plain c) → Cuts rest more →
    Cuts (cs ++ rest) (tokens ++ more)

theorem shows_nil : Shows [] [] :=
  ⟨[], .nil, fun _ _ _ h ↦ h⟩

theorem shows_atom (h : IsWord text) : Shows text.toList [.atom text] := by
  refine ⟨[.atom text], .atom .nil, fun rest more hr hm ↦ ?_⟩
  have hcut := Cuts.atom h.nonempty (fun c hc ↦ Token.plain_iff.2 (h.solid c hc)) hr hm
  rwa [String.ofList_toList] at hcut

theorem shows_literal (h : Escapes written body) :
    Shows ('"' :: (written ++ ['"'])) [.literal (.ofList body)] := by
  refine ⟨[.literal (.ofList body)], .literal .nil, fun rest more _ hm ↦ ?_⟩
  rw [List.cons_append, List.append_assoc, List.singleton_append]
  exact .literal h hm

theorem shows_group (h : Shows cs items) : Shows ('(' :: (cs ++ [')'])) [.group items] := by
  obtain ⟨inner, hi, hcuts⟩ := h
  refine ⟨.opening .round :: (inner ++ [.closing .round]), .group .round hi .nil, fun rest more _ hm ↦ ?_⟩
  have hclose : ∀ c ∈ (')' :: rest).head?, ¬Plain c := by
    rintro _ ⟨⟩
    exact not_plain_of_isDelimiter (by decide)
  have hinner := hcuts _ _ hclose (Cuts.closing .round hm)
  rw [List.cons_append, List.append_assoc, List.singleton_append, List.cons_append, List.append_assoc,
    List.singleton_append]
  exact .opening .round hinner

theorem Shows.spaced {cs' : List Char} {trees' : List Tree} (h : Shows cs trees) (h' : Shows cs' trees') :
    Shows (cs ++ ' ' :: cs') (trees ++ trees') := by
  obtain ⟨tokens, hr, hcuts⟩ := h
  obtain ⟨tokens', hr', hcuts'⟩ := h'
  refine ⟨tokens ++ tokens', hr.append hr', fun rest more hrest hm ↦ ?_⟩
  have hspace : ∀ c ∈ (' ' :: (cs' ++ rest)).head?, ¬Plain c := by
    rintro _ ⟨⟩
    exact not_plain_of_isDelimiter (by decide)
  rw [List.append_assoc, List.cons_append, List.append_assoc]
  exact hcuts _ _ hspace (.blank (by decide) (hcuts' _ _ hrest hm))

theorem shows_intercalate {texts : List String}
    (h : List.Forall₂ (fun text tree ↦ Shows text.toList [tree]) texts trees) :
    Shows (" ".intercalate texts).toList trees := by
  induction h with
  | nil => exact shows_nil
  | @cons text tree texts trees hd htl ih =>
    cases htl with
    | nil =>
      rw [String.intercalate_singleton]
      exact hd
    | cons hd' htl' =>
      rw [String.intercalate_cons_cons, String.toList_append, String.toList_append, List.append_assoc]
      exact hd.spaced ih

theorem Shows.readAll (h : Shows text.toList trees) : readAll text = .ok trees := by
  obtain ⟨tokens, hr, hcuts⟩ := h
  have hcut := hcuts [] [] nofun .done
  rw [List.append_nil, List.append_nil] at hcut
  rw [readAll_iff_run, Reading.run_eq_ok_iff, Reading.finishes_empty_iff, hcut.scan 0]
  exact hr

theorem Shows.read (h : Shows text.toList [tree]) : read text = .ok tree := by
  rw [read_iff_run, Reading.run_single_iff {} (Nat.zero_le 1)]
  exact ⟨readAll_iff_run.1 h.readAll, le_rfl⟩

/-- A text without comments that is read as one tree shows this tree. -/
theorem shows_of_read (h : Tree.read text = .ok tree) (hc : ';' ∉ text.toList) : Shows text.toList [tree] := by
  have hr := renders_of_read h
  exact ⟨_, hr, fun rest more ↦ (Token.cuts_scan 0 _ hr.unterminated_not_mem).append hc⟩

end Tree

end TypeAlgebra
