import TypeAlgebra.Command.Program
import TypeAlgebra.Proofs.Composition
import TypeAlgebra.Proofs.Evaluation

namespace TypeAlgebra

inductive Combination where
  | union
  | inter

namespace Combination

def word : Combination → String
  | union => "union"
  | inter => "inter"

def make : Combination → List Ty → Step Ty
  | union => Step.join
  | inter => Step.meet

def written (kind : Combination) (texts : List String) : String :=
  "(" ++ kind.word ++ " " ++ " ".intercalate texts ++ ")"

variable {kind : Combination} {texts : List String} {trees : List Tree}

theorem read_written (h : List.Forall₂ (fun text tree ↦ Tree.read text = .ok tree) texts trees)
    (hc : ∀ text ∈ texts, ';' ∉ text.toList) :
    Tree.read (kind.written texts) = .ok (.group (.atom kind.word :: trees)) := by
  have hshows : List.Forall₂ (fun text tree ↦ Tree.Shows text.toList [tree]) texts trees := by
    induction h with
    | nil => exact .nil
    | cons hd _ ih =>
      obtain ⟨hc₁, hc₂⟩ := List.forall_mem_cons.1 hc
      exact .cons (Tree.shows_of_read hd hc₁) (ih hc₂)
  have hword : IsWord kind.word := by cases kind <;> decide
  have hform := Tree.shows_group ((Tree.shows_atom hword).spaced (Tree.shows_intercalate hshows))
  refine Tree.Shows.read ?_
  simpa [written] using hform

theorem parseTree_group (start : Nat) (h : trees ≠ []) :
    Parser.parseTree start (.group (.atom kind.word :: trees)) = Parser.parseEach start trees >>= kind.make := by
  obtain ⟨tree, trees, rfl⟩ := List.exists_cons_of_ne_nil h
  cases kind with
  | union =>
    rw [Parser.parseTree]
    rfl
  | inter =>
    rw [Parser.parseTree]
    rfl

end Combination

namespace Parser

variable {start : Nat} {context after : Context} {texts : List String} {ts : List Ty}

/-- Texts that are parsed one after the other are read as trees, and parsed as these are. -/
theorem exists_trees (h : (texts.mapM (parseText start)).run context = (.ok ts, after)) :
    ∃ trees, List.Forall₂ (fun text tree ↦ Tree.read text = .ok tree) texts trees ∧
      (parseEach start trees).run context = (.ok ts, after) := by
  induction texts generalizing context ts after with
  | nil => exact ⟨[], .nil, by rw [parseEach]; exact h⟩
  | cons text texts ih =>
    rw [List.mapM_cons] at h
    obtain ⟨t, next, hd, h⟩ := Step.exists_of_run_bind h
    obtain ⟨rest, last, htl, h⟩ := Step.exists_of_run_bind h
    cases h
    obtain ⟨trees, hf, hp⟩ := ih htl
    cases hread : Tree.read text with
    | error problem =>
      rw [parseText, hread] at hd
      cases hd
    | ok tree =>
      rw [parseText, hread] at hd
      refine ⟨tree :: trees, .cons hread hf, ?_⟩
      rw [parseEach, Step.run_bind, hd]
      dsimp only
      rw [Step.run_bind, hp]
      rfl

end Parser

namespace Combination

variable {texts : List String} {context after : Context} {ts : List Ty}

theorem parse_written (kind : Combination) (hne : texts ≠ []) (hc : ∀ text ∈ texts, ';' ∉ text.toList)
    (hp : (Step.parseAll texts).run context = (.ok ts, after)) :
    (Step.parse (kind.written texts)).run context = (kind.make ts).run after := by
  obtain ⟨trees, hf, hparsed⟩ := Parser.exists_trees hp
  have htrees : trees ≠ [] := by
    rintro rfl
    cases hf
    exact hne rfl
  change (Parser.parseText context.cells.length (kind.written texts)).run context = _
  rw [Parser.parseText, read_written hf hc]
  dsimp only
  rw [parseTree_group _ htrees, Step.run_bind, hparsed]

theorem exists_make (kind : Combination) (hp : (Step.parseAll texts).run context = (.ok ts, after)) :
    ∃ t last, (kind.make ts).run after = (.ok t, last) := by
  have hfree : ∀ t ∈ ts, after.env.Free t :=
    fun t ht ↦ ((Step.parseAll_yields texts context ts after hp).2 t ht).free
  cases kind with
  | union =>
    obtain ⟨warnings, hr⟩ := Parser.run_join hfree
    exact ⟨_, _, hr⟩
  | inter =>
    obtain ⟨warnings, hr⟩ := Parser.run_meet hfree
    exact ⟨_, _, hr⟩

end Combination

namespace Parser

variable {start : Nat} {context after : Context} {text : String} {t : Ty}

theorem parseAtom_dash_ne_ok (word : List Char) :
    (parseAtom start (.ofList ('-' :: word))).run context ≠ (.ok t, after) := by
  have hne (keyword : String) (hk : keyword.toList.head? ≠ some '-') : String.ofList ('-' :: word) ≠ keyword := by
    rintro rfl
    rw [String.toList_ofList] at hk
    exact hk rfl
  have hkind : Kind.ofKeyword? (.ofList ('-' :: word)) = none := by
    unfold Kind.ofKeyword?
    split
    all_goals first | rfl | exact absurd ‹_› (hne _ (by decide))
  have hstarts : startsName (.ofList ('-' :: word)) = false := by
    rw [startsName, String.toList_ofList]
    change (decide ('-' = '_') || Text.isLetter '-') = false
    decide +kernel
  rw [parseAtom, hkind]
  dsimp only
  rw [if_neg (hne "Empty" (by decide)), hstarts]
  intro h
  split at h <;> cases h

/-- A text that starts with a dash is not parsed as a type. -/
theorem head?_ne_dash (h : (parseText start text).run context = (.ok t, after)) :
    text.toList.head? ≠ some '-' := by
  intro hd
  obtain ⟨cs, hcs⟩ : ∃ cs, text.toList = '-' :: cs := by
    cases ht : text.toList with
    | nil =>
      rw [ht] at hd
      cases hd
    | cons c cs =>
      rw [ht] at hd
      cases hd
      exact ⟨cs, rfl⟩
  rw [parseText] at h
  split at h
  · next tree hr =>
    have hrenders := Tree.renders_of_read hr
    rw [hcs, Token.scan, if_neg (by decide), if_neg (by decide), if_neg (by decide), if_neg (by decide),
      if_neg (by decide), if_neg (by decide), if_neg (by decide)] at hrenders
    cases hrenders
    rw [parseTree] at h
    exact parseAtom_dash_ne_ok _ h
  · cases h

theorem heads_ne_dash {texts : List String} {ts : List Ty}
    (h : (texts.mapM (parseText start)).run context = (.ok ts, after)) :
    ∀ text ∈ texts, text.toList.head? ≠ some '-' := by
  induction texts generalizing context ts after with
  | nil => exact nofun
  | cons text texts ih =>
    rw [List.mapM_cons] at h
    obtain ⟨t, next, hd, h⟩ := Step.exists_of_run_bind h
    obtain ⟨rest, last, htl, -⟩ := Step.exists_of_run_bind h
    exact List.forall_mem_cons.2 ⟨head?_ne_dash hd, ih htl⟩

end Parser

namespace Options

variable {flags : List Flag} {settings : Settings} {words : List String} {value? : Option String} {limit : Int64}

def limitWords : Option String → List String
  | none => []
  | some value => ["--dnf-limit", value]

def limitOf : Option String → Except LiteralFlaw Int64
  | none => .ok 0
  | some value => Literal.integer value

theorem flagWord?_eq_none {word : String} (h : word.toList.head? ≠ some '-') (next? : Option String) :
    flagWord? flags next? settings word = none := by
  unfold flagWord?
  split
  · next ht => exact absurd (by rw [ht]; rfl) h
  · next ht => exact absurd (by rw [ht]; rfl) h
  · rfl

theorem read_arguments (h : ∀ word ∈ words, word.toList.head? ≠ some '-') (arguments : List String) :
    read flags settings arguments words = .ok (settings, arguments ++ words) := by
  induction words generalizing arguments with
  | nil => rw [read, List.append_nil]
  | cons word words ih =>
    obtain ⟨hd, htl⟩ := List.forall_mem_cons.1 h
    have hdash : word ≠ "--" := by
      rintro rfl
      exact hd (by decide)
    rw [read, if_neg hdash]
    · rw [ih htl, List.append_assoc, List.singleton_append]
    · exact flagWord?_eq_none hd _

theorem long_limit (h : flags.find? (·.name = "dnf-limit") = some .limit) (value : String) :
    long flags (some value) settings "dnf-limit" = (Flag.limit.set value settings).map (·, true) := by
  have hs : splitLong "dnf-limit" = ("dnf-limit", none) := by decide +kernel
  rw [long, if_neg (by decide), hs]
  dsimp only
  rw [h]
  rfl

theorem read_limit (h : flags.find? (·.name = "dnf-limit") = some .limit) (hl : limitOf value? = .ok limit)
    (hw : ∀ word ∈ words, word.toList.head? ≠ some '-') :
    read flags {} [] (limitWords value? ++ words) = .ok ({ limit }, words) := by
  cases value? with
  | none =>
    cases hl
    exact read_arguments hw []
  | some value =>
    have hset : Flag.limit.set value {} = .ok { limit } := by
      change Literal.integer value = .ok limit at hl
      simp only [Flag.set, hl]
      rfl
    have hflag : flagWord? flags (some value) {} "--dnf-limit" = some (.ok ({ limit }, true)) := by
      change some (long flags (some value) {} "dnf-limit") = _
      rw [long_limit h, hset]
      rfl
    change read flags {} [] ("--dnf-limit" :: value :: words) = _
    unfold read
    rw [if_neg (by decide), List.head?_cons, hflag]
    exact read_arguments hw []

/-- The name of a command is found where it comes first. -/
theorem splitCommand?_name {name : String} {verb : Verb} (h : Verb.ofName? name = some verb) :
    splitCommand? (name :: words) = some (name, words) := by
  unfold Verb.ofName? at h
  split at h <;> cases h
  all_goals
    unfold splitCommand?
    rw [if_neg (by decide), if_neg (by decide), if_neg (by decide)]

theorem splitCommand?_limit {name : String} {verb : Verb} (h : Verb.ofName? name = some verb) :
    splitCommand? (limitWords value? ++ name :: words) = some (name, limitWords value? ++ words) := by
  cases value? with
  | none => exact splitCommand?_name h
  | some value =>
    change splitCommand? ("--dnf-limit" :: value :: name :: words) = _
    rw [splitCommand?, if_neg (by decide), if_pos (by decide)]
    simp only [splitCommand?_name h]
    rfl

end Options

namespace Job

variable {name : String} {value? : Option String} {limit : Int64} {words : List String}

/-- The job of a command that can be given a limit, with that limit. -/
theorem ofWords_limit (verb : Verb) (hn : Verb.ofName? name = some verb)
    (hf : verb.flags.find? (·.name = "dnf-limit") = some .limit) (ha : verb.accepts words = .ok ())
    (hl : Options.limitOf value? = .ok limit) (hw : ∀ word ∈ words, word.toList.head? ≠ some '-') :
    ofWords (Options.limitWords value? ++ name :: words) = .ok (ofVerb verb { limit } words) := by
  rw [ofWords, Options.splitCommand?_limit hn]
  simp only [hn]
  rw [Options.read_limit hf hl hw]
  change (verb.accepts words >>= fun _ ↦ pure (ofVerb verb { limit } words)) = _
  rw [ha]
  rfl

end Job

namespace Outcome

variable {limit : Int64}

theorem ofStep_congr {step step' : Step String} (h : step.run { limit } = step'.run { limit }) :
    ofStep limit step = ofStep limit step' := by
  have hrun : step.run.run { limit } = step'.run.run { limit } := h
  rw [ofStep, ofStep, hrun]

theorem parsed_single (text : String) :
    parsed false [text] = Step.parse text >>= fun t ↦ do return (← Step.unparse t) ++ "\n" := by
  simp [parsed, Step.parseAll, Step.parse, String.join]

end Outcome

namespace Combination

variable {texts : List String} {value? : Option String} {limit : Int64}

theorem ofJob_combine (kind : Combination) {after : Context} {ts : List Ty} (hne : texts ≠ [])
    (hc : ∀ text ∈ texts, ';' ∉ text.toList) (hp : (Step.parseAll texts).run { limit } = (.ok ts, after))
    (disk : Disk) (script : List Converse.Input) :
    Outcome.ofJob disk script (.combine kind.make limit texts) =
      Outcome.ofJob disk script (.parse false limit [kind.written texts]) := by
  have hboth : (Step.parseAll texts >>= kind.make).run { limit } =
      (Step.parse (kind.written texts)).run { limit } := by
    rw [Step.run_bind, hp, parse_written kind hne hc hp]
  refine Outcome.ofStep_congr ?_
  rw [Outcome.parsed_single, ← bind_assoc, Step.run_bind, hboth, Step.run_bind]

theorem ofWords_combine (kind : Combination) (hne : texts ≠ []) (hl : Options.limitOf value? = .ok limit)
    (hw : ∀ text ∈ texts, text.toList.head? ≠ some '-') :
    Job.ofWords (Options.limitWords value? ++ kind.word :: texts) = .ok (.combine kind.make limit texts) := by
  obtain ⟨text, texts, rfl⟩ := List.exists_cons_of_ne_nil hne
  cases kind with
  | union => exact Job.ofWords_limit .union (by decide) (by decide) rfl hl hw
  | inter => exact Job.ofWords_limit .inter (by decide) (by decide) rfl hl hw

theorem ofWords_parse (kind : Combination) (texts : List String) (hl : Options.limitOf value? = .ok limit) :
    Job.ofWords (Options.limitWords value? ++ ["parse", kind.written texts]) =
      .ok (.parse false limit [kind.written texts]) := by
  have hhead : (kind.written texts).toList.head? = some '(' := by simp [written]
  refine Job.ofWords_limit .parse (by decide) (by decide) rfl hl ?_
  intro text ht
  rw [List.mem_singleton.1 ht, hhead]
  decide

/--
The combination of texts that are parsed together is what their combination in writing is parsed to, and the same cells
are left. The job of combining texts has the outcome that parsing the written form has, and so have the words of a
command line that ask for these jobs.
-/
theorem combine_written (kind : Combination) {texts : List String} {context after : Context} {ts : List Ty}
    (hne : texts ≠ []) (hc : ∀ text ∈ texts, ';' ∉ text.toList)
    (hp : (Step.parseAll texts).run context = (.ok ts, after)) :
    (∃ t last, (kind.make ts).run after = (.ok t, last) ∧
        (Step.parse (kind.written texts)).run context = (.ok t, last)) ∧
      (∀ disk script limit, context = { limit } →
        Outcome.ofJob disk script (.combine kind.make limit texts) =
          Outcome.ofJob disk script (.parse false limit [kind.written texts])) ∧
      ∀ disk script value? limit, Options.limitOf value? = .ok limit → context = { limit } →
        Outcome.ofWords disk script (Options.limitWords value? ++ kind.word :: texts) =
          Outcome.ofWords disk script (Options.limitWords value? ++ ["parse", kind.written texts]) := by
  refine ⟨?_, ?_, ?_⟩
  · obtain ⟨t, last, hm⟩ := exists_make kind hp
    exact ⟨t, last, hm, (parse_written kind hne hc hp).trans hm⟩
  · rintro disk script limit rfl
    exact ofJob_combine kind hne hc hp disk script
  · rintro disk script value? limit hl rfl
    rw [Outcome.ofWords, Outcome.ofWords, ofWords_combine kind hne hl (Parser.heads_ne_dash hp),
      ofWords_parse kind texts hl]
    exact ofJob_combine kind hne hc hp disk script

theorem combine_written_spaced :
    ((Step.parseAll [" [inter a  number]", "a\t"]).run { limit := 2 }).1 =
        .ok [.inter [.var ⟨"a", some 0⟩, .atomic .number], .var ⟨"a", some 0⟩] ∧
      Outcome.ofJob ⟨[], []⟩ [] (.combine Step.join 2 [" [inter a  number]", "a\t"]) =
        Outcome.ofJob ⟨[], []⟩ [] (.parse false 2 ["(union  [inter a  number] a\t)"]) ∧
      Outcome.ofWords ⟨[], []⟩ [] ["--dnf-limit", "2", "union", " [inter a  number]", "a\t"] =
        Outcome.ofWords ⟨[], []⟩ [] ["--dnf-limit", "2", "parse", "(union  [inter a  number] a\t)"] := by
  have hp : ((Step.parseAll [" [inter a  number]", "a\t"]).run { limit := 2 }).1 =
      .ok [.inter [.var ⟨"a", some 0⟩, .atomic .number], .var ⟨"a", some 0⟩] := by
    decide +kernel
  obtain ⟨-, hjob, hwords⟩ := combine_written .union (by decide) (by decide) (Prod.ext hp rfl)
  exact ⟨hp, hjob _ _ 2 rfl, hwords _ _ (some "2") 2 (by decide) rfl⟩

end Combination

end TypeAlgebra
