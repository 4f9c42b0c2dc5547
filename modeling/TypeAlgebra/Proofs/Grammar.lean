import TypeAlgebra.Proofs.Reading

namespace TypeAlgebra

namespace Token

def Plain (c : Char) : Prop :=
  Text.isBlank c = false ∧ c ∉ ['(', ')', '[', ']', '"', ';']

inductive Escapes : List Char → List Char → Prop
  | nil : Escapes [] []
  | plain {c : Char} {written body : List Char} : c ≠ '"' → c ≠ '\\' → Escapes written body →
      Escapes (c :: written) (c :: body)
  | newline {written body : List Char} : Escapes written body → Escapes ('\\' :: 'n' :: written) ('\n' :: body)
  | tab {written body : List Char} : Escapes written body → Escapes ('\\' :: 't' :: written) ('\t' :: body)
  | escaped {c : Char} {written body : List Char} : c ≠ 'n' → c ≠ 't' → Escapes written body →
      Escapes ('\\' :: c :: written) (c :: body)

/-- The text can be cut into white space, comments and these tokens. -/
inductive Cuts : List Char → List Token → Prop
  | done : Cuts [] []
  | blank {c : Char} {rest : List Char} {tokens : List Token} : Text.isBlank c = true → Cuts rest tokens →
      Cuts (c :: rest) tokens
  | comment {body rest : List Char} {tokens : List Token} : '\n' ∉ body → (∀ c ∈ rest.head?, c = '\n') →
      Cuts rest tokens → Cuts (';' :: (body ++ rest)) tokens
  | opening (bracket : Bracket) {rest : List Char} {tokens : List Token} : Cuts rest tokens →
      Cuts (bracket.opening :: rest) (.opening bracket :: tokens)
  | closing (bracket : Bracket) {rest : List Char} {tokens : List Token} : Cuts rest tokens →
      Cuts (bracket.closing :: rest) (.closing bracket :: tokens)
  | literal {written body rest : List Char} {tokens : List Token} : Escapes written body → Cuts rest tokens →
      Cuts ('"' :: (written ++ '"' :: rest)) (.literal (.ofList body) :: tokens)
  | atom {word rest : List Char} {tokens : List Token} : word ≠ [] → (∀ c ∈ word, Plain c) →
      (∀ c ∈ rest.head?, ¬Plain c) → Cuts rest tokens → Cuts (word ++ rest) (.atom (.ofList word) :: tokens)

variable {c : Char} {cs rest written body word : List Char} {tokens : List Token} {offset : Nat}

theorem plain_iff : Plain c ↔ isDelimiter c = false := by
  simp only [Plain, isDelimiter, Bool.or_eq_false_iff, decide_eq_false_iff_not]
  exact and_comm

theorem breaks_of_head? (h : ∀ c ∈ rest.head?, ¬Plain c) : Breaks rest := by
  rintro c cs rfl
  have hc := h c rfl
  rwa [plain_iff, Bool.not_eq_false] at hc

theorem unescape_of_ne (hn : c ≠ 'n') (ht : c ≠ 't') : unescape c = c := by
  unfold unescape
  split
  · exact absurd rfl hn
  · exact absurd rfl ht
  · rfl

theorem literalBody?_of_escapes (h : Escapes written body) :
    literalBody? (written ++ '"' :: rest) = some (body, rest) := by
  induction h with
  | nil => rfl
  | @plain c written body hq hb _ ih =>
    rw [List.cons_append, literalBody?, ih]
    · rfl
    · exact hq
    · rintro rfl
      exact absurd rfl hb
    · exact fun _ _ h ↦ absurd h hb
  | newline _ ih =>
    rw [List.cons_append, List.cons_append, literalBody?, ih]
    rfl
  | tab _ ih =>
    rw [List.cons_append, List.cons_append, literalBody?, ih]
    rfl
  | @escaped c written body hn ht _ ih =>
    rw [List.cons_append, List.cons_append, literalBody?, ih]
    simp [unescape_of_ne hn ht]

theorem escapes_of_literalBody? (h : literalBody? cs = some (body, rest)) :
    ∃ written, Escapes written body ∧ cs = written ++ '"' :: rest := by
  fun_induction literalBody? cs generalizing body with
  | case1 => cases h
  | case2 after =>
    cases h
    exact ⟨[], .nil, rfl⟩
  | case3 => cases h
  | case4 c after ih =>
    obtain ⟨⟨found, tail⟩, hf, he⟩ := Option.map_eq_some_iff.1 h
    cases he
    obtain ⟨written, hw, rfl⟩ := ih hf
    refine ⟨'\\' :: c :: written, ?_, rfl⟩
    by_cases hn : c = 'n'
    · subst hn
      exact .newline hw
    · by_cases ht : c = 't'
      · subst ht
        exact .tab hw
      · rw [unescape_of_ne hn ht]
        exact .escaped hn ht hw
  | case5 c after h₁ h₂ h₃ ih =>
    obtain ⟨⟨found, tail⟩, hf, he⟩ := Option.map_eq_some_iff.1 h
    cases he
    obtain ⟨written, hw, rfl⟩ := ih hf
    have hb : c ≠ '\\' := by
      rintro rfl
      cases hl : written ++ '"' :: rest with
      | nil => exact h₂ rfl hl
      | cons d ds => exact h₃ d ds rfl hl
    exact ⟨c :: written, .plain h₁ hb hw, rfl⟩

theorem scan_bracket_opening (bracket : Bracket) (offset : Nat) :
    scan offset (bracket.opening :: rest) = ⟨offset, .opening bracket⟩ :: scan (offset + 1) rest := by
  cases bracket with
  | round => exact scan_opening offset
  | square =>
    rw [Bracket.opening, scan, if_neg (by decide), if_neg (by decide), if_neg (by decide), if_pos rfl]

theorem scan_bracket_closing (bracket : Bracket) (offset : Nat) :
    scan offset (bracket.closing :: rest) = ⟨offset, .closing bracket⟩ :: scan (offset + 1) rest := by
  cases bracket with
  | round => exact scan_closing offset
  | square =>
    rw [Bracket.closing, scan, if_neg (by decide), if_neg (by decide), if_neg (by decide), if_neg (by decide),
      if_neg (by decide), if_pos rfl]

theorem span_comment (hb : '\n' ∉ body) (hr : ∀ c ∈ rest.head?, c = '\n') :
    (body ++ rest).takeWhile (· ≠ '\n') = body ∧ (body ++ rest).dropWhile (· ≠ '\n') = rest := by
  have hall : ∀ c ∈ body, decide (c ≠ '\n') = true := by
    intro c hc
    refine decide_eq_true ?_
    rintro rfl
    exact hb hc
  rw [List.takeWhile_append_of_pos hall, List.dropWhile_append_of_pos hall]
  cases rest with
  | nil => exact ⟨List.append_nil body, rfl⟩
  | cons c rest =>
    obtain rfl := hr c rfl
    exact ⟨List.append_nil body, rfl⟩

theorem scan_literal (h : literalBody? cs = some (body, rest)) (offset : Nat) :
    ∃ offset', scan offset ('"' :: cs) = ⟨offset, .literal (.ofList body)⟩ :: scan offset' rest := by
  rw [Token.scan, if_neg (by decide), if_neg (by decide), if_neg (by decide), if_neg (by decide),
    if_neg (by decide), if_neg (by decide), if_pos rfl]
  split
  · next hn => cases hn.symm.trans h
  · next hs =>
    cases hs.symm.trans h
    exact ⟨_, rfl⟩

/-- A text that can be cut into tokens is cut into these by scanning. -/
theorem Cuts.scan (h : Cuts cs tokens) (offset : Nat) : (scan offset cs).map Lexeme.token = tokens := by
  induction h generalizing offset with
  | done => rw [Token.scan, List.map_nil]
  | blank hb _ ih => rw [Token.scan, if_pos hb, ih]
  | comment hb hr _ ih =>
    obtain ⟨htake, hdrop⟩ := span_comment hb hr
    rw [Token.scan, if_neg (by decide), if_pos rfl, hdrop, ih]
  | opening bracket _ ih => rw [scan_bracket_opening, List.map_cons, ih]
  | closing bracket _ ih => rw [scan_bracket_closing, List.map_cons, ih]
  | literal he _ ih =>
    obtain ⟨offset', hs⟩ := scan_literal (literalBody?_of_escapes he) offset
    rw [hs, List.map_cons, ih]
  | @atom word rest tokens hne hp hr _ ih =>
    have hw : IsWord (String.ofList word) := by
      refine ⟨?_, ?_⟩
      · rwa [String.toList_ofList]
      · rw [String.toList_ofList]
        exact fun c hc ↦ plain_iff.1 (hp c hc)
    have hs := scan_word hw (breaks_of_head? hr) offset
    rw [String.toList_ofList] at hs
    rw [hs, List.map_cons, ih]

theorem head?_dropWhile {p : Char → Bool} (h : c ∈ (cs.dropWhile p).head?) : p c = false := by
  have hd := List.head?_dropWhile_not p cs
  rwa [h] at hd

/-- Scanning cuts a text into tokens, unless a string literal is cut off. -/
theorem cuts_scan (offset : Nat) (cs : List Char)
    (h : Token.unterminated ∉ (scan offset cs).map Lexeme.token) :
    Cuts cs ((scan offset cs).map Lexeme.token) := by
  fun_induction scan offset cs with
  | case1 => exact .done
  | case2 _ _ _ hb ih => exact .blank hb (ih h)
  | case3 offset cs _ ih =>
    have hb : '\n' ∉ cs.takeWhile (· ≠ '\n') := by
      intro hm
      simpa using List.mem_takeWhile_imp hm
    have hr : ∀ c ∈ (cs.dropWhile (· ≠ '\n')).head?, c = '\n' := by
      intro c hc
      simpa using head?_dropWhile hc
    have hcut := Cuts.comment hb hr (ih h)
    rwa [List.takeWhile_append_dropWhile] at hcut
  | case4 offset cs _ _ ih => exact .opening .round (ih fun hm ↦ h (List.mem_cons_of_mem _ hm))
  | case5 offset cs _ _ _ ih => exact .opening .square (ih fun hm ↦ h (List.mem_cons_of_mem _ hm))
  | case6 offset cs _ _ _ _ ih => exact .closing .round (ih fun hm ↦ h (List.mem_cons_of_mem _ hm))
  | case7 offset cs _ _ _ _ _ ih => exact .closing .square (ih fun hm ↦ h (List.mem_cons_of_mem _ hm))
  | case8 => exact absurd List.mem_cons_self h
  | case9 offset cs body after hb _ _ _ _ _ _ ih =>
    obtain ⟨written, he, rfl⟩ := escapes_of_literalBody? hb
    exact .literal he (ih fun hm ↦ h (List.mem_cons_of_mem _ hm))
  | case10 offset c cs h₁ h₂ h₃ h₄ h₅ h₆ h₇ word ih =>
    have hc : Plain c := by
      refine ⟨by simpa using h₁, ?_⟩
      simp [h₂, h₃, h₄, h₅, h₆, h₇]
    have hp : ∀ d ∈ c :: word, Plain d := by
      refine List.forall_mem_cons.2 ⟨hc, fun d hd ↦ plain_iff.2 ?_⟩
      simpa using List.mem_takeWhile_imp hd
    have hr : ∀ d ∈ (cs.dropWhile (!isDelimiter ·)).head?, ¬Plain d := by
      intro d hd
      rw [plain_iff, Bool.not_eq_false]
      simpa using head?_dropWhile hd
    have hcut := Cuts.atom (List.cons_ne_nil c word) hp hr (ih fun hm ↦ h (List.mem_cons_of_mem _ hm))
    rwa [List.cons_append, List.takeWhile_append_dropWhile] at hcut

end Token

namespace Tree

/-- The tokens are a rendering of the trees, in which each group stands between two brackets that match. -/
inductive Renders : List Tree → List Token → Prop
  | nil : Renders [] []
  | atom {text : String} {trees : List Tree} {tokens : List Token} : Renders trees tokens →
      Renders (.atom text :: trees) (.atom text :: tokens)
  | literal {text : String} {trees : List Tree} {tokens : List Token} : Renders trees tokens →
      Renders (.literal text :: trees) (.literal text :: tokens)
  | group (bracket : Bracket) {items trees : List Tree} {inner tokens : List Token} : Renders items inner →
      Renders trees tokens →
      Renders (.group items :: trees) (.opening bracket :: (inner ++ .closing bracket :: tokens))

variable {tree : Tree} {items trees result : List Tree} {inner tokens : List Token}

theorem Renders.append {left right : List Tree} {ls rs : List Token} (hl : Renders left ls)
    (hr : Renders right rs) : Renders (left ++ right) (ls ++ rs) := by
  induction hl with
  | nil => exact hr
  | atom _ ih => exact .atom ih
  | literal _ ih => exact .literal ih
  | @group bracket items trees inner tokens hi _ _ ih =>
    have h := Renders.group bracket hi ih
    simpa using h

theorem Renders.eq_nil (h : Renders [] tokens) : tokens = [] := by
  cases h
  rfl

theorem Renders.unterminated_not_mem (h : Renders trees tokens) : Token.unterminated ∉ tokens := by
  induction h with
  | nil => exact List.not_mem_nil
  | atom _ ih => simpa using ih
  | literal _ ih => simpa using ih
  | group bracket _ _ ih₁ ih₂ => simpa using ⟨ih₁, ih₂⟩

namespace Reading

inductive Finishes : Reading → List Token → List Tree → Prop
  | done {trees more : List Tree} {tokens : List Token} : Renders more tokens →
      Finishes ⟨⟨[]⟩, trees⟩ tokens (trees ++ more)
  | close {g : OpenGroup} {groups : List OpenGroup} {trees items result : List Tree} {inner rest : List Token} :
      Renders items inner → Finishes (add ⟨⟨groups⟩, trees⟩ (.group (g.items ++ items))) rest result →
      Finishes ⟨⟨g :: groups⟩, trees⟩ (inner ++ .closing g.bracket :: rest) result

variable {reading : Reading}

theorem add_nil (trees : List Tree) (tree : Tree) : add ⟨⟨[]⟩, trees⟩ tree = ⟨⟨[]⟩, trees ++ [tree]⟩ :=
  rfl

theorem add_cons (g : OpenGroup) (groups : List OpenGroup) (trees : List Tree) (tree : Tree) :
    add ⟨⟨g :: groups⟩, trees⟩ tree = ⟨⟨{ g with items := g.items ++ [tree] } :: groups⟩, trees⟩ :=
  rfl

/-- A tree that is read next may as well have been read already. -/
theorem Finishes.of_add {piece : List Token} (ht : Renders [tree] piece)
    (h : Finishes (reading.add tree) tokens result) : Finishes reading (piece ++ tokens) result := by
  obtain ⟨⟨groups⟩, trees⟩ := reading
  cases groups with
  | nil =>
    rw [add_nil] at h
    cases h with
    | done hr =>
      rw [List.append_assoc]
      exact .done (ht.append hr)
  | cons g groups =>
    rw [add_cons] at h
    cases h with
    | @close _ _ _ items _ inner rest hr hf =>
      rw [← List.append_assoc]
      refine .close (ht.append hr) ?_
      rwa [List.append_assoc] at hf

theorem Finishes.exists_close {g : OpenGroup} {groups : List OpenGroup} (h : Finishes ⟨⟨g :: groups⟩, trees⟩ tokens result) :
    ∃ items inner rest, Renders items inner ∧ tokens = inner ++ .closing g.bracket :: rest ∧
      Finishes (add ⟨⟨groups⟩, trees⟩ (.group (g.items ++ items))) rest result := by
  cases h with
  | close hr hf => exact ⟨_, _, _, hr, rfl, hf⟩

/-- The trees found so far stay, and more are found if there is anything left to read. -/
theorem Finishes.exists_append (h : Finishes reading tokens result) :
    ∃ more, result = reading.trees ++ more ∧ (more = [] → reading.groups.items = [] ∧ tokens = []) := by
  induction h with
  | @done trees more tokens hr =>
    refine ⟨more, rfl, ?_⟩
    rintro rfl
    exact ⟨rfl, hr.eq_nil⟩
  | @close g groups trees items result inner rest hr hf ih =>
    obtain ⟨more, rfl, hmore⟩ := ih
    cases groups with
    | nil => exact ⟨.group (g.items ++ items) :: more, List.append_assoc .., nofun⟩
    | cons g' groups => exact ⟨more, rfl, fun hm ↦ absurd (hmore hm).1 (List.cons_ne_nil _ _)⟩

/-- What a token does to a reading, where it may be followed by anything. -/
theorem step_eq (reading : Reading) (lexeme : Lexeme) :
    reading.step false lexeme =
      match lexeme.token with
      | .opening bracket => .ok { reading with groups := reading.groups.push ⟨bracket, lexeme.offset, []⟩ }
      | .closing bracket => reading.close bracket
      | .literal text => .ok (reading.add (.literal text))
      | .atom text => .ok (reading.add (.atom text))
      | .unterminated => .error .unterminated := by
  rfl

theorem close_eq_ok {bracket : Bracket} {next : Reading} (h : reading.close bracket = .ok next) :
    ∃ g groups, g.bracket = bracket ∧ reading = ⟨⟨g :: groups⟩, reading.trees⟩ ∧
      next = add ⟨⟨groups⟩, reading.trees⟩ (.group g.items) := by
  obtain ⟨⟨groups⟩, trees⟩ := reading
  cases groups with
  | nil => cases h
  | cons g groups =>
    simp only [close, Stack.pop?] at h
    split at h
    · next hb =>
      cases h
      exact ⟨g, groups, hb, rfl, rfl⟩
    · cases h

theorem run_finishes {lexemes : List Lexeme} (h : reading.run false lexemes = .ok result) :
    Finishes reading (lexemes.map Lexeme.token) result := by
  induction lexemes generalizing reading with
  | nil =>
    obtain ⟨⟨groups⟩, trees⟩ := reading
    cases groups with
    | nil =>
      cases h
      have hdone : Finishes ⟨⟨[]⟩, trees⟩ [] (trees ++ []) := .done .nil
      rwa [List.append_nil] at hdone
    | cons g groups => cases h
  | cons lexeme rest ih =>
    obtain ⟨offset, token⟩ := lexeme
    rw [run] at h
    split at h
    · next next hs =>
      have hf := ih h
      rw [step_eq] at hs
      rw [List.map_cons]
      cases token with
      | opening bracket =>
        cases hs
        obtain ⟨items, inner, after, hr, he, hf⟩ := hf.exists_close
        have hread := hf.of_add (Renders.group bracket hr .nil)
        rw [he]
        simpa using hread
      | closing bracket =>
        obtain ⟨g, groups, rfl, hg, rfl⟩ := close_eq_ok hs
        rw [hg]
        refine .close .nil ?_
        rwa [List.append_nil]
      | literal text =>
        cases hs
        exact hf.of_add (.literal .nil)
      | atom text =>
        cases hs
        exact hf.of_add (.atom .nil)
      | unterminated => cases hs
    · cases h

theorem run_of_step {single : Bool} {next : Reading} {lexeme : Lexeme} (h : reading.step single lexeme = .ok next)
    (rest : List Lexeme) : reading.run single (lexeme :: rest) = next.run single rest := by
  rw [run, h]

theorem step_close (g : OpenGroup) (groups : List OpenGroup) (trees : List Tree) (offset : Nat) :
    step false ⟨⟨g :: groups⟩, trees⟩ ⟨offset, .closing g.bracket⟩ =
      .ok (add ⟨⟨groups⟩, trees⟩ (.group g.items)) := by
  rw [step_eq]
  simp only [close, Stack.pop?, if_true]

theorem foldl_add_nil (trees items : List Tree) : items.foldl add ⟨⟨[]⟩, trees⟩ = ⟨⟨[]⟩, trees ++ items⟩ := by
  induction items generalizing trees with
  | nil => rw [List.foldl_nil, List.append_nil]
  | cons tree items ih => rw [List.foldl_cons, add_nil, ih, List.append_assoc, List.singleton_append]

theorem foldl_add_cons (g : OpenGroup) (groups : List OpenGroup) (trees items : List Tree) :
    items.foldl add ⟨⟨g :: groups⟩, trees⟩ = ⟨⟨{ g with items := g.items ++ items } :: groups⟩, trees⟩ := by
  induction items generalizing g with
  | nil => rw [List.foldl_nil, List.append_nil]
  | cons tree items ih => rw [List.foldl_cons, add_cons, ih, List.append_assoc, List.singleton_append]

/-- A rendering of trees adds the trees to what has been read, whatever comes after it. -/
theorem run_renders (h : Renders items tokens) (reading : Reading) {lexemes : List Lexeme}
    (hl : lexemes.map Lexeme.token = tokens) (rest : List Lexeme) :
    reading.run false (lexemes ++ rest) = (items.foldl add reading).run false rest := by
  induction h generalizing reading lexemes rest with
  | nil =>
    rw [List.map_eq_nil_iff.1 hl]
    rfl
  | atom _ ih =>
    obtain ⟨⟨offset, _⟩, lexemes, rfl, rfl, hl'⟩ := List.map_eq_cons_iff.1 hl
    rw [List.cons_append, run_of_step rfl, ih _ hl']
    rfl
  | literal _ ih =>
    obtain ⟨⟨offset, _⟩, lexemes, rfl, rfl, hl'⟩ := List.map_eq_cons_iff.1 hl
    rw [List.cons_append, run_of_step rfl, ih _ hl']
    rfl
  | group bracket _ _ ih₁ ih₂ =>
    obtain ⟨⟨offset, _⟩, lexemes, rfl, rfl, hl₁⟩ := List.map_eq_cons_iff.1 hl
    obtain ⟨within, after, rfl, hwithin, hl₂⟩ := List.map_eq_append_iff.1 hl₁
    obtain ⟨⟨offset', _⟩, after, rfl, rfl, hl₃⟩ := List.map_eq_cons_iff.1 hl₂
    rw [List.cons_append, run_of_step rfl, List.append_assoc, ih₁ _ hwithin]
    change run false (List.foldl add ⟨⟨⟨bracket, offset, []⟩ :: reading.groups.items⟩, reading.trees⟩ _) _ = _
    rw [foldl_add_cons, List.cons_append, run_of_step (step_close _ _ _ offset'), ih₂ _ hl₃]
    rfl

theorem Finishes.run (h : Finishes reading tokens result) {lexemes : List Lexeme}
    (hl : lexemes.map Lexeme.token = tokens) : reading.run false lexemes = .ok result := by
  induction h generalizing lexemes with
  | @done trees more tokens hr =>
    have hrun := run_renders hr ⟨⟨[]⟩, trees⟩ hl []
    rw [List.append_nil, foldl_add_nil] at hrun
    exact hrun
  | @close g groups trees items result inner rest hr _ ih =>
    obtain ⟨within, after, rfl, hwithin, hl₁⟩ := List.map_eq_append_iff.1 hl
    obtain ⟨⟨offset, _⟩, after, rfl, rfl, hl₂⟩ := List.map_eq_cons_iff.1 hl₁
    rw [run_renders hr _ hwithin, foldl_add_cons]
    exact (run_of_step (step_close { g with items := g.items ++ items } groups trees offset) after).trans (ih hl₂)

/-- Reading on comes to an end with these trees exactly if the tokens finish it with them. -/
theorem run_eq_ok_iff {lexemes : List Lexeme} :
    reading.run false lexemes = .ok result ↔ Finishes reading (lexemes.map Lexeme.token) result :=
  ⟨run_finishes, fun h ↦ h.run rfl⟩

theorem step_single (h : reading.trees = []) (lexeme : Lexeme) :
    reading.step true lexeme = reading.step false lexeme := by
  obtain ⟨groups, trees⟩ := reading
  cases h
  rfl

theorem step_single_cons {tree : Tree} (h : reading.trees = [tree]) (lexeme : Lexeme) :
    reading.step true lexeme = .error (.trailing tree) := by
  obtain ⟨groups, trees⟩ := reading
  cases h
  rfl

theorem length_add_le (reading : Reading) (tree : Tree) :
    (reading.add tree).trees.length ≤ reading.trees.length + 1 := by
  obtain ⟨⟨groups⟩, trees⟩ := reading
  cases groups with
  | nil => rw [add_nil, List.length_append, List.length_singleton]
  | cons g groups => exact Nat.le_succ _

theorem length_step_le {next : Reading} {lexeme : Lexeme} (h : reading.step false lexeme = .ok next) :
    next.trees.length ≤ reading.trees.length + 1 := by
  obtain ⟨offset, token⟩ := lexeme
  rw [step_eq] at h
  cases token with
  | opening bracket =>
    cases h
    exact Nat.le_succ _
  | closing bracket =>
    obtain ⟨g, groups, -, -, rfl⟩ := close_eq_ok h
    exact length_add_le _ _
  | literal text =>
    cases h
    exact length_add_le _ _
  | atom text =>
    cases h
    exact length_add_le _ _
  | unterminated => cases h

/-- Where one tree is to be read, what comes after the first tree is refused instead of read. -/
theorem run_single_iff (reading : Reading) {lexemes : List Lexeme} (h : reading.trees.length ≤ 1) :
    reading.run true lexemes = .ok result ↔ reading.run false lexemes = .ok result ∧ result.length ≤ 1 := by
  induction lexemes generalizing reading with
  | nil =>
    refine (and_iff_left_of_imp fun hr ↦ ?_).symm
    obtain ⟨⟨groups⟩, trees⟩ := reading
    cases groups with
    | nil =>
      cases hr
      exact h
    | cons g groups => cases hr
  | cons lexeme rest ih =>
    cases ht : reading.trees with
    | nil =>
      rw [run, run, step_single ht]
      cases hs : reading.step false lexeme with
      | ok next =>
        have hlength := length_step_le hs
        rw [ht] at hlength
        exact ih next hlength
      | error flaw => simp
    | cons tree trees =>
      obtain rfl : trees = [] := by
        rw [ht] at h
        exact List.eq_nil_of_length_eq_zero (Nat.le_zero.1 (Nat.le_of_succ_le_succ h))
      rw [run, step_single_cons ht]
      refine ⟨fun hr ↦ ?_, fun hr ↦ ?_⟩
      · cases hr
      · obtain ⟨more, rfl, hmore⟩ := (run_finishes hr.1).exists_append
        have hnil : more = [] := by
          have hlength := hr.2
          rw [ht, List.length_append, List.length_singleton] at hlength
          exact List.eq_nil_of_length_eq_zero (by omega)
        exact absurd (hmore hnil).2 (List.cons_ne_nil _ _)

theorem finishes_empty_iff : Finishes {} tokens result ↔ Renders result tokens := by
  constructor
  · intro h
    cases h with
    | done hr => exact hr
  · exact fun h ↦ .done h

end Reading

theorem readAll_iff_run {text : String} :
    readAll text = .ok trees ↔ Reading.run false {} (Token.scan 0 text.toList) = .ok trees := by
  unfold readAll
  cases Reading.run false {} (Token.scan 0 text.toList) <;> simp

theorem read_iff_run {text : String} :
    read text = .ok tree ↔ Reading.run true {} (Token.scan 0 text.toList) = .ok [tree] := by
  have hsingle {result : List Tree} (h : Reading.run true {} (Token.scan 0 text.toList) = .ok result) :
      result.length ≤ 1 :=
    ((Reading.run_single_iff {} (Nat.zero_le 1)).1 h).2
  unfold read
  cases hr : Reading.run true {} (Token.scan 0 text.toList) with
  | error => simp
  | ok result =>
    cases result with
    | nil => simp
    | cons first rest =>
      obtain rfl : rest = [] := List.eq_nil_of_length_eq_zero (by simpa using hsingle hr)
      simp

theorem renders_of_read {text : String} (h : read text = .ok tree) :
    Renders [tree] ((Token.scan 0 text.toList).map Lexeme.token) := by
  obtain ⟨hrun, -⟩ := (Reading.run_single_iff {} (Nat.zero_le 1)).1 (read_iff_run.1 h)
  exact Reading.finishes_empty_iff.1 (Reading.run_finishes hrun)

/-- The trees that a text is read as, by the grammar, and the texts that are read as one tree. -/
theorem readAll_eq_ok_iff (text : String) :
    (∀ trees, readAll text = .ok trees ↔ ∃ tokens, Token.Cuts text.toList tokens ∧ Renders trees tokens) ∧
      ∀ tree, read text = .ok tree ↔ readAll text = .ok [tree] := by
  constructor
  · intro trees
    rw [readAll_iff_run, Reading.run_eq_ok_iff, Reading.finishes_empty_iff]
    constructor
    · intro h
      exact ⟨_, Token.cuts_scan 0 _ h.unterminated_not_mem, h⟩
    · rintro ⟨tokens, hc, hr⟩
      rwa [hc.scan 0]
  · intro tree
    rw [read_iff_run, readAll_iff_run, Reading.run_single_iff {} (Nat.zero_le 1)]
    exact and_iff_left le_rfl

end Tree

end TypeAlgebra
