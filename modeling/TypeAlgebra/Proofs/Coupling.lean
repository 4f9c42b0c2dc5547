import TypeAlgebra.Run
import TypeAlgebra.Sequence.Pairs
import TypeAlgebra.Sequence.Prune
import TypeAlgebra.Sequence.StableSort
import Mathlib.Data.List.Forall2

namespace TypeAlgebra

structure Coupling (m n : Type → Type) [Monad m] [Monad n] where
  rel {α β : Type} (R : α → β → Prop) : m α → n β → Prop
  rel_pure {α β : Type} {R : α → β → Prop} {a : α} {b : β} : R a b → rel R (pure a) (pure b)
  rel_bind {α β γ δ : Type} {R : α → β → Prop} {S : γ → δ → Prop} {x : m α} {y : n β}
    {f : α → m γ} {g : β → n δ} :
    rel R x y → (∀ a b, R a b → rel S (f a) (g b)) → rel S (x >>= f) (y >>= g)

namespace Coupling

variable {m n : Type → Type} [Monad m] [Monad n] (c : Coupling m n)
variable {α β γ δ : Type} {R : α → β → Prop} {S : γ → δ → Prop} {as : List α} {bs : List β}

theorem rel_ite {b : Bool} {x x' : m γ} {y y' : n δ} (h : c.rel S x y) (h' : c.rel S x' y') :
    c.rel S (if b then x else x') (if b then y else y') := by
  cases b
  · exact h'
  · exact h

theorem rel_bind_eq {x : m α} {y : n α} {f : α → m γ} {g : α → n δ} (h : c.rel Eq x y)
    (hf : ∀ a, c.rel S (f a) (g a)) : c.rel S (x >>= f) (y >>= g) := by
  refine c.rel_bind h ?_
  rintro a _ rfl
  exact hf a

theorem rel_test {x : m Bool} {y : n Bool} {f : Bool → m γ} {g : Bool → n δ}
    (h : c.rel Eq x y) (ht : c.rel S (f true) (g true)) (hf : c.rel S (f false) (g false)) :
    c.rel S (x >>= f) (y >>= g) := by
  refine c.rel_bind_eq h fun b ↦ ?_
  cases b
  · exact hf
  · exact ht

theorem rel_anyM {p : α → m Bool} {q : β → n Bool}
    (h : List.Forall₂ (fun a b ↦ c.rel Eq (p a) (q b)) as bs) :
    c.rel Eq (as.anyM p) (bs.anyM q) := by
  induction h with
  | nil => exact c.rel_pure rfl
  | cons hd _ ih => exact c.rel_test hd (c.rel_pure rfl) ih

theorem rel_allM {p : α → m Bool} {q : β → n Bool}
    (h : List.Forall₂ (fun a b ↦ c.rel Eq (p a) (q b)) as bs) :
    c.rel Eq (as.allM p) (bs.allM q) := by
  induction h with
  | nil => exact c.rel_pure rfl
  | cons hd _ ih => exact c.rel_test hd ih (c.rel_pure rfl)

theorem rel_mapM {f : α → m γ} {g : β → n δ}
    (h : List.Forall₂ (fun a b ↦ c.rel S (f a) (g b)) as bs) :
    c.rel (List.Forall₂ S) (as.mapM f) (bs.mapM g) := by
  have loop {xs : List γ} {ys : List δ} (hs : List.Forall₂ S xs ys) :
      c.rel (List.Forall₂ S) (List.mapM.loop f as xs) (List.mapM.loop g bs ys) := by
    induction h generalizing xs ys with
    | nil => exact c.rel_pure (List.rel_reverse hs)
    | cons hd _ ih => exact c.rel_bind hd fun _ _ hr ↦ ih (.cons hr hs)
  exact loop .nil

theorem rel_filterM {p : α → m Bool} {q : β → n Bool} (h : List.Forall₂ R as bs)
    (hp : ∀ a b, R a b → c.rel Eq (p a) (q b)) :
    c.rel (List.Forall₂ R) (as.filterM p) (bs.filterM q) := by
  have loop {xs : List α} {ys : List β} (hs : List.Forall₂ R xs ys) :
      c.rel (List.Forall₂ R) (List.filterAuxM p as xs) (List.filterAuxM q bs ys) := by
    induction h generalizing xs ys with
    | nil => exact c.rel_pure hs
    | cons hd _ ih => exact c.rel_test (hp _ _ hd) (ih (.cons hd hs)) (ih hs)
  exact c.rel_bind (loop .nil) fun _ _ hs ↦ c.rel_pure (List.rel_reverse hs)

theorem rel_foldlM {f : γ → α → m γ} {g : δ → β → n δ} {x : γ} {y : δ} (h : List.Forall₂ R as bs)
    (hf : ∀ x y a b, S x y → R a b → c.rel S (f x a) (g y b)) (hs : S x y) :
    c.rel S (as.foldlM f x) (bs.foldlM g y) := by
  induction h generalizing x y with
  | nil => exact c.rel_pure hs
  | cons hd _ ih => exact c.rel_bind (hf _ _ _ _ hs hd) fun _ _ hr ↦ ih hr

theorem rel_allPairs {p : α → γ → m Bool} {q : β → δ → n Bool} {cs : List γ} {ds : List δ}
    (h : List.Forall₂ R as bs) (h' : List.Forall₂ S cs ds)
    (hp : ∀ a b c' d, R a b → S c' d → c.rel Eq (p a c') (q b d)) :
    c.rel Eq (allPairs p as cs) (allPairs q bs ds) := by
  have zip : List.Forall₂ (fun x y ↦ c.rel Eq (p x.1 x.2) (q y.1 y.2)) (as.zip cs) (bs.zip ds) := by
    induction h generalizing cs ds with
    | nil => exact .nil
    | cons hd _ ih =>
      cases h' with
      | nil => exact .nil
      | cons hd' ht' => exact .cons (hp _ _ _ _ hd hd') (ih ht')
  have hl : as.length = cs.length ↔ bs.length = ds.length := by
    rw [h.length_eq, h'.length_eq]
  unfold allPairs
  by_cases he : as.length = cs.length
  · rw [if_pos he, if_pos (hl.1 he)]
    exact c.rel_allM zip
  · rw [if_neg he, if_neg (mt hl.2 he)]
    exact c.rel_pure rfl

section Redundancy

variable {p : α → α → m Bool} {q : β → β → n Bool}
variable (hp : ∀ a b a' b', R a b → R a' b' → c.rel Eq (p a a') (q b b'))

include hp

theorem rel_anyM_with {a : α} {b : β} (h : R a b) (hs : List.Forall₂ R as bs) :
    c.rel Eq (as.anyM (p a)) (bs.anyM (q b)) :=
  c.rel_anyM (hs.imp fun _ _ h' ↦ hp _ _ _ _ h h')

theorem rel_prune (h : List.Forall₂ R as bs) :
    c.rel (List.Forall₂ R) (prune p as) (prune q bs) := by
  have loop {xs : List α} {ys : List β} (hs : List.Forall₂ R xs ys) :
      c.rel (List.Forall₂ R) (pruneFrom p xs as) (pruneFrom q ys bs) := by
    induction h generalizing xs ys with
    | nil => exact c.rel_pure hs
    | cons hd ht ih =>
      refine c.rel_test (c.rel_anyM_with hp hd ht) (ih hs) ?_
      refine c.rel_test (c.rel_anyM_with hp hd hs) (ih hs) ?_
      exact ih (List.rel_append hs (.cons hd .nil))
  exact loop .nil

end Redundancy

section Order

variable {p : α → α → m Ordering} {q : β → β → n Ordering}
variable (hp : ∀ a b a' b', R a b → R a' b' → c.rel Eq (p a a') (q b b'))

include hp

theorem rel_insertBackward {a : α} {b : β} (h : R a b) (hs : List.Forall₂ R as bs) :
    c.rel (List.Forall₂ R) (insertBackward p a as) (insertBackward q b bs) := by
  induction hs with
  | nil => exact c.rel_pure (.cons h .nil)
  | cons hd ht ih =>
    refine c.rel_bind (hp _ _ _ _ h hd) ?_
    rintro o _ rfl
    split
    · exact c.rel_bind ih fun _ _ hr ↦ c.rel_pure (.cons hd hr)
    · exact c.rel_pure (.cons h (.cons hd ht))

theorem rel_mergeRuns {as' : List α} {bs' : List β} (h : List.Forall₂ R as bs)
    (h' : List.Forall₂ R as' bs') :
    c.rel (List.Forall₂ R) (mergeRuns p as as') (mergeRuns q bs bs') := by
  -- Each round shortens one of the two runs, so the induction is nested.
  induction h generalizing as' bs' with
  | nil =>
    rw [mergeRuns, mergeRuns]
    exact c.rel_pure h'
  | cons hd ht ih =>
    induction h' with
    | nil =>
      rw [mergeRuns, mergeRuns]
      · exact c.rel_pure (.cons hd ht)
      · simp
      · simp
    | cons hd' ht' ih' =>
      rw [mergeRuns, mergeRuns]
      refine c.rel_bind (hp _ _ _ _ hd' hd) ?_
      rintro o _ rfl
      split
      · exact c.rel_bind ih' fun _ _ hr ↦ c.rel_pure (.cons hd' hr)
      · exact c.rel_bind (ih (.cons hd' ht')) fun _ _ hr ↦ c.rel_pure (.cons hd hr)

variable [LawfulMonad m] [LawfulMonad n]

theorem rel_insertionSort (h : List.Forall₂ R as bs) :
    c.rel (List.Forall₂ R) (insertionSort p as) (insertionSort q bs) := by
  unfold insertionSort
  rw [map_eq_pure_bind, map_eq_pure_bind]
  refine c.rel_bind ?_ fun _ _ hr ↦ c.rel_pure (List.rel_reverse hr)
  exact c.rel_foldlM h (fun _ _ _ _ hs hr ↦ c.rel_insertBackward hp hr hs) .nil

omit hp [Monad m] [Monad n] [LawfulMonad m] [LawfulMonad n] in
theorem forall₂_runsOf (size : Nat) (h : List.Forall₂ R as bs) :
    List.Forall₂ (List.Forall₂ R) (runsOf size as) (runsOf size bs) := by
  induction as using runsOf.induct size generalizing bs with
  | case1 =>
    cases h
    rw [runsOf, runsOf]
    exact .nil
  | case2 a rest ih =>
    cases h with
    | cons hd ht =>
      rw [runsOf, runsOf]
      exact .cons (.cons hd (List.forall₂_take size ht)) (ih (List.forall₂_drop size ht))

theorem rel_stableSort (h : List.Forall₂ R as bs) :
    c.rel (List.Forall₂ R) (stableSort p as) (stableSort q bs) := by
  have runs := c.rel_mapM ((forall₂_runsOf 19 h).imp fun _ _ hr ↦ c.rel_insertionSort hp hr)
  refine c.rel_bind runs fun _ _ hr ↦ ?_
  exact c.rel_foldlM hr (fun _ _ _ _ ↦ c.rel_mergeRuns hp) .nil

end Order

theorem rel_mapM_eq {f : α → m γ} {g : α → n γ} (h : ∀ a, c.rel Eq (f a) (g a)) (as : List α) :
    c.rel Eq (as.mapM f) (as.mapM g) := by
  rw [← List.forall₂_eq_eq_eq]
  exact c.rel_mapM (List.forall₂_same.2 fun a _ ↦ h a)

theorem rel_filterM_eq {p : α → m Bool} {q : α → n Bool} (h : ∀ a, c.rel Eq (p a) (q a)) (as : List α) :
    c.rel Eq (as.filterM p) (as.filterM q) := by
  rw [← List.forall₂_eq_eq_eq]
  refine c.rel_filterM (List.forall₂_refl as) ?_
  rintro a _ rfl
  exact h a

theorem rel_prune_eq {p : α → α → m Bool} {q : α → α → n Bool} (h : ∀ a b, c.rel Eq (p a b) (q a b))
    (as : List α) : c.rel Eq (prune p as) (prune q as) := by
  rw [← List.forall₂_eq_eq_eq]
  refine c.rel_prune ?_ (List.forall₂_refl as)
  rintro a _ b _ rfl rfl
  exact h a b

theorem rel_stableSort_eq [LawfulMonad m] [LawfulMonad n] {p : α → α → m Ordering} {q : α → α → n Ordering}
    (h : ∀ a b, c.rel Eq (p a b) (q a b)) (as : List α) : c.rel Eq (stableSort p as) (stableSort q as) := by
  rw [← List.forall₂_eq_eq_eq]
  refine c.rel_stableSort ?_ (List.forall₂_refl as)
  rintro a _ b _ rfl rfl
  exact h a b

theorem forall₂_mem_same {α : Type} (as : List α) : List.Forall₂ (fun a b ↦ a = b ∧ a ∈ as) as as :=
  List.forall₂_same.2 fun _ ha ↦ ⟨rfl, ha⟩

theorem eq_of_forall₂ {α : Type} {P : α → Prop} {as bs : List α}
    (h : List.Forall₂ (fun a b ↦ a = b ∧ P a) as bs) : as = bs := by
  induction h with
  | nil => rfl
  | cons hd _ ih => rw [hd.1, ih]

/-- Elements with a property, each next to its image. -/
theorem forall₂_image_iff {α β : Type} {P : α → Prop} {f : α → β} {as : List α} {bs : List β} :
    List.Forall₂ (fun a b ↦ P a ∧ b = f a) as bs ↔ (∀ a ∈ as, P a) ∧ bs = as.map f := by
  constructor
  · intro h
    induction h with
    | nil => exact ⟨List.forall_mem_nil _, rfl⟩
    | cons hd _ ih => exact ⟨List.forall_mem_cons.2 ⟨hd.1, ih.1⟩, by rw [hd.2, ih.2, List.map_cons]⟩
  · rintro ⟨h, rfl⟩
    rw [List.forall₂_map_right_iff]
    exact List.forall₂_same.2 fun a ha ↦ ⟨h a ha, rfl⟩

def plain : Coupling Id Id where
  rel R a b := R a b
  rel_pure h := h
  rel_bind h hf := hf _ _ h

def settled {ε : Type} : Coupling (Except ε) Id where
  rel R x b := ∃ a, x = .ok a ∧ R a b
  rel_pure h := ⟨_, rfl, h⟩
  rel_bind := by
    rintro α β γ δ R S x y f g ⟨a, rfl, ha⟩ hf
    exact hf _ _ ha

def mirrored {ε : Type} : Coupling (Except ε) (Except ε) where
  rel R x y := (∃ a b, x = .ok a ∧ y = .ok b ∧ R a b) ∨ ∃ e, x = .error e ∧ y = .error e
  rel_pure h := .inl ⟨_, _, rfl, rfl, h⟩
  rel_bind := by
    rintro α β γ δ R S x y f g (⟨a, b, rfl, rfl, ha⟩ | ⟨e, rfl, rfl⟩) hf
    · exact hf _ _ ha
    · exact .inr ⟨e, rfl, rfl⟩

theorem mirrored_eq_iff {ε : Type} {x y : Except ε α} : mirrored.rel Eq x y ↔ x = y := by
  constructor
  · rintro (⟨a, _, rfl, rfl, rfl⟩ | ⟨e, rfl, rfl⟩) <;> rfl
  · rintro rfl
    cases x with
    | error e => exact .inr ⟨e, rfl, rfl⟩
    | ok a => exact .inl ⟨a, a, rfl, rfl, rfl⟩

def together {ε : Type} : Coupling (Except ε) (Except ε) where
  rel R x y := (∃ a b, x = .ok a ∧ y = .ok b ∧ R a b) ∨ ∃ e e', x = .error e ∧ y = .error e'
  rel_pure h := .inl ⟨_, _, rfl, rfl, h⟩
  rel_bind := by
    rintro α β γ δ R S x y f g (⟨a, b, rfl, rfl, ha⟩ | ⟨e, e', rfl, rfl⟩) hf
    · exact hf _ _ ha
    · exact .inr ⟨e, e', rfl, rfl⟩

/-- Computations that are mirrored, unless the first one fails in a way that counts as an excuse. -/
def excused {ε : Type} (E : ε → Prop) : Coupling (Except ε) (Except ε) where
  rel R x y := (∃ e, E e ∧ x = .error e) ∨ mirrored.rel R x y
  rel_pure h := .inr (mirrored.rel_pure h)
  rel_bind := by
    rintro α β γ δ R S x y f g (⟨e, he, rfl⟩ | ⟨a, b, rfl, rfl, ha⟩ | ⟨e, rfl, rfl⟩) hf
    · exact .inl ⟨e, he, rfl⟩
    · exact hf _ _ ha
    · exact .inr (.inr ⟨e, rfl, rfl⟩)

theorem excused_refl {ε : Type} {E : ε → Prop} (x : Except ε α) : (excused E).rel Eq x x :=
  .inr (mirrored_eq_iff.2 rfl)

def optional (c : Coupling m n) : Coupling (OptionT m) (OptionT n) where
  rel R x y := c.rel (Option.Rel R) x.run y.run
  rel_pure h := c.rel_pure (.some h)
  rel_bind h hf := by
    refine c.rel_bind h ?_
    rintro _ _ (h | _)
    · exact hf _ _ h
    · exact c.rel_pure .none

end Coupling

namespace Run

variable {α β : Type}

theorem outcome_pure (a : α) : (pure a : Run α).outcome = .ok a := rfl

theorem outcome_bind (run : Run α) (f : α → Run β) :
    (run >>= f).outcome = run.outcome >>= fun a ↦ (f a).outcome := by
  rcases run with ⟨_ | a, _⟩ <;> rfl

theorem outcome_bind_ok {run : Run α} {a : α} {f : α → Run β} (h : run.outcome = .ok a) :
    (run >>= f).outcome = (f a).outcome := by
  rw [outcome_bind, h]
  rfl

theorem outcome_lift (x : Except Fault α) : (liftM x : Run α).outcome = x := rfl

def settled : Coupling Run Id where
  rel R run b := Coupling.settled.rel R run.outcome b
  rel_pure h := Coupling.settled.rel_pure h
  rel_bind h hf := by
    rw [outcome_bind]
    exact Coupling.settled.rel_bind h hf

def mirrored : Coupling Run Run where
  rel R run run' := Coupling.mirrored.rel R run.outcome run'.outcome
  rel_pure h := Coupling.mirrored.rel_pure h
  rel_bind h hf := by
    rw [outcome_bind, outcome_bind]
    exact Coupling.mirrored.rel_bind h hf

/-- The same for runs of which the first one may have an excuse. -/
def excused (E : Fault → Prop) : Coupling Run Run where
  rel R run run' := (Coupling.excused E).rel R run.outcome run'.outcome
  rel_pure h := (Coupling.excused E).rel_pure h
  rel_bind h hf := by
    rw [outcome_bind, outcome_bind]
    exact (Coupling.excused E).rel_bind h hf

theorem rel_of_mirrored {R : α → β → Prop} {run : Run α} {run' : Run β} {a : α} {b : β}
    (h : mirrored.rel R run run') (ha : run.outcome = .ok a) (hb : run'.outcome = .ok b) : R a b := by
  rcases h with ⟨a', b', ha', hb', hr⟩ | ⟨e, he, -⟩
  · rwa [Except.ok.inj (ha.symm.trans ha'), Except.ok.inj (hb.symm.trans hb')]
  · cases ha.symm.trans he

def Ends (P : α → Prop) (run : Run α) : Prop :=
  ∃ a, run.outcome = .ok a ∧ P a

theorem Ends.pure {P : α → Prop} {a : α} (h : P a) : Ends P (Pure.pure a) :=
  ⟨a, rfl, h⟩

theorem Ends.bind {P : α → Prop} {Q : β → Prop} {run : Run α} {f : α → Run β} (h : run.Ends P)
    (hf : ∀ a, P a → (f a).Ends Q) : (run >>= f).Ends Q := by
  obtain ⟨a, ha, hp⟩ := h
  obtain ⟨b, hb, hq⟩ := hf a hp
  exact ⟨b, (outcome_bind_ok ha).trans hb, hq⟩

theorem Ends.ite {P : α → Prop} {b : Bool} {run run' : Run α} (h : run.Ends P) (h' : run'.Ends P) :
    (if b then run else run').Ends P := by
  cases b
  · exact h'
  · exact h

end Run

end TypeAlgebra
