import TypeAlgebra.Proofs.Reach
import TypeAlgebra.Proofs.Rules

namespace TypeAlgebra

def answer {ε α : Type} [Inhabited α] : Except ε α → α
  | .ok a => a
  | .error _ => default

theorem answer_spec {ε α : Type} [Inhabited α] {x : Except ε α} {a : α} (h : x = .ok a) :
    x = .ok (answer x) := by
  subst h
  rfl

/-- An answer that is the same from some depth on is found at any particular depth beyond it. -/
theorem settled_at {ε α : Type} [Inhabited α] {f : Nat → Except ε α} {bound depth : Nat}
    (h : ∃ a, ∀ d ≥ bound, f d = .ok a) (hd : bound ≤ depth) :
    ∀ d ≥ bound, f d = .ok (answer (f depth)) := by
  obtain ⟨a, ha⟩ := h
  intro d hb
  rw [ha d hb, ha depth hd]
  rfl

namespace Env

variable {env : Env} {s t u : Ty} {v : Var}

def Resolved (env : Env) (t : Ty) : Prop :=
  ∀ v, t = .var v → env.cells.contents v = .ok none

theorem resolved_of_not_var (h : t.isVar = false) : env.Resolved t := by
  rintro v rfl
  cases h

theorem follow_founded {steps : Nat} (ht : env.Founded t) (hs : (env.reach t).card < steps) :
    ∃ u, env.cells.follow steps t = .ok u ∧ env.Resolved u ∧
      (∀ v, env.Reaches u v → env.Reaches t v) ∧ env.rank u ≤ env.rank t := by
  induction steps generalizing t with
  | zero => omega
  | succ steps ih =>
    have stay (h : env.cells.follow (steps + 1) t = .ok t) (hr : env.Resolved t) :
        ∃ u, env.cells.follow (steps + 1) t = .ok u ∧ env.Resolved u ∧
          (∀ v, env.Reaches u v → env.Reaches t v) ∧ env.rank u ≤ env.rank t :=
      ⟨t, h, hr, fun _ h ↦ h, le_rfl⟩
    cases t with
    | var v =>
      have hv : env.Reaches (.var v) v := reaches_self (List.mem_singleton_self v)
      obtain ⟨c, hc⟩ := ht.owned v hv
      cases c with
      | none =>
        refine stay ?_ ?_
        · rw [Cells.follow, hc]
          rfl
        · intro w hw
          cases hw
          exact hc
      | some u =>
        have hcard := card_reach_contents ht hc
        obtain ⟨r, hf, hr, hreach, hrank⟩ := ih (ht.contents hc) (by omega)
        refine ⟨r, ?_, hr, fun w hw ↦ hv.trans_binds hc (hreach w hw), ?_⟩
        · rw [Cells.follow, hc]
          exact hf
        · exact hrank.trans (rank_contents ht hc).le
    | _ => exact stay rfl nofun

theorem deref_founded (ht : env.Founded t) :
    ∃ u, env.deref t = .ok u ∧ env.Resolved u ∧
      (∀ v, env.Reaches u v → env.Reaches t v) ∧ env.rank u ≤ env.rank t := by
  cases t with
  | var v =>
    have hcard := card_reach_le env (.var v)
    exact follow_founded ht (by omega)
  | _ => exact ⟨_, rfl, nofun, fun _ h ↦ h, le_rfl⟩

def resolved (env : Env) (t : Ty) : Ty :=
  answer (env.deref t)

theorem resolved_spec (ht : env.Founded t) :
    env.deref t = .ok (env.resolved t) ∧ env.Resolved (env.resolved t) ∧
      (∀ v, env.Reaches (env.resolved t) v → env.Reaches t v) ∧
      env.rank (env.resolved t) ≤ env.rank t := by
  obtain ⟨u, hu, h⟩ := deref_founded ht
  have hr : env.resolved t = u := by rw [resolved, hu]; rfl
  rw [hr]
  exact ⟨hu, h⟩

theorem Founded.resolved (ht : env.Founded t) : env.Founded (env.resolved t) :=
  ht.of_reaches (resolved_spec ht).2.2.1

theorem Resolved.resolved_eq (h : env.Resolved t) : env.resolved t = t := by
  cases t with
  | var v =>
    have hd : env.deref (.var v) = .ok (.var v) := by
      rw [Env.deref, Cells.deref, Cells.follow, h v rfl]
      rfl
    rw [Env.resolved, hd]
    rfl
  | _ => rfl

theorem le_depth (env : Env) (ts : List Ty) {n : Nat} (h : n ≤ env.cells.size + Ty.sizeEach ts + 4) :
    3 * n ^ 2 ≤ env.depth ts := by
  have hm : n ^ 2 ≤ (env.cells.size + Ty.sizeEach ts + 4) ^ 2 := Nat.pow_le_pow_left h 2
  have h4 : 3 ≤ (env.cells.size + Ty.sizeEach ts + 4) ^ 4 :=
    le_trans (by decide) (Nat.pow_le_pow_left (Nat.le_add_left 4 _) 4)
  calc 3 * n ^ 2 ≤ (env.cells.size + Ty.sizeEach ts + 4) ^ 4 * (env.cells.size + Ty.sizeEach ts + 4) ^ 2 :=
        Nat.mul_le_mul h4 hm
    _ = env.depth ts := by rw [← pow_add]; rfl

theorem rank_lt_depth {ts : List Ty} (h : t ∈ ts) : env.rank t < env.depth ts := by
  have hr := rank_le env t
  have hs := Ty.size_le_sizeEach h
  have hd := le_depth env ts (n := env.rank t + 1) (by omega)
  nlinarith

def same (env : Env) (s t : Ty) : Bool :=
  answer (env.equal s t)

theorem equalTo_succ (hs : env.Founded s) (ht : env.Founded t) (d : Nat) :
    env.equalTo (d + 1) s t = Ty.equalBy (env.equalTo d) (env.resolved s) (env.resolved t) := by
  rw [equalTo, (resolved_spec hs).1, (resolved_spec ht).1]
  rfl

/-- One layer of equality over components whose comparisons are known. -/
theorem equalBy_settled {f : Ty → Ty → Except Fault Bool} {q : Ty → Ty → Bool}
    (h : ∀ a ∈ s.children, ∀ b ∈ t.children, f a b = .ok (q a b)) :
    Ty.equalBy f s t = .ok (Ty.equalBy (m := Id) q s t) := by
  have hr := Coupling.settled.rel_equalBy (f := id) (p := f) (q := q) (s := s) (t := t)
    (fun _ ↦ rfl) fun a ha b hb ↦ ⟨q a b, h a ha b hb, by rw [Ty.rename_id, Ty.rename_id]⟩
  rw [Ty.rename_id, Ty.rename_id] at hr
  obtain ⟨r, hr, rfl⟩ := hr
  exact hr

theorem equalTo_settled {n : Nat} (hs : env.Founded s) (ht : env.Founded t) (hn : env.rank s ≤ n) :
    ∃ r, ∀ d ≥ n + 1, env.equalTo d s t = .ok r := by
  induction n generalizing s t with
  | zero => exact absurd hn (Nat.not_le.2 (rank_pos env s))
  | succ n ih =>
    refine ⟨Ty.equalBy (m := Id) (fun a b ↦ answer (env.equalTo (n + 1) a b)) (env.resolved s)
      (env.resolved t), fun d hd ↦ ?_⟩
    obtain ⟨d, rfl⟩ : ∃ k, d = k + 1 := ⟨d - 1, by omega⟩
    rw [equalTo_succ hs ht]
    refine equalBy_settled fun a ha b hb ↦ ?_
    have hrank := (rank_lt_of_child env ha).trans_le (resolved_spec hs).2.2.2
    have hab := ih (hs.resolved.child ha) (ht.resolved.child hb) (by omega)
    exact settled_at (f := fun d ↦ env.equalTo d a b) hab le_rfl d (by omega)

theorem equalTo_eq_same (hs : env.Founded s) (ht : env.Founded t) {d : Nat} (hd : env.rank s < d) :
    env.equalTo d s t = .ok (env.same s t) :=
  settled_at (f := fun d ↦ env.equalTo d s t) (equalTo_settled hs ht le_rfl)
    (rank_lt_depth List.mem_cons_self) d hd

theorem equal_eq (hs : env.Founded s) (ht : env.Founded t) : env.equal s t = .ok (env.same s t) :=
  equalTo_eq_same hs ht (rank_lt_depth List.mem_cons_self)

theorem same_eq (hs : env.Founded s) (ht : env.Founded t) :
    env.same s t = Ty.equalBy (m := Id) env.same (env.resolved s) (env.resolved t) := by
  have h := equalTo_eq_same hs ht (Nat.lt_succ_of_lt (Nat.lt_succ_self (env.rank s)))
  rw [equalTo_succ hs ht, equalBy_settled (q := env.same)] at h
  · exact (Except.ok.inj h).symm
  · intro a ha b hb
    have hrank := (rank_lt_of_child env ha).trans_le (resolved_spec hs).2.2.2
    exact equalTo_eq_same (hs.resolved.child ha) (ht.resolved.child hb) (by omega)

end Env

theorem mapM_congr {m : Type → Type} [Monad m] [LawfulMonad m] {α β : Type} {f g : α → m β}
    {as : List α} (h : ∀ a ∈ as, f a = g a) : as.mapM f = as.mapM g := by
  induction as with
  | nil => rfl
  | cons a as ih =>
    rw [List.mapM_cons, List.mapM_cons, h a List.mem_cons_self,
      ih fun b hb ↦ h b (List.mem_cons_of_mem a hb)]

def Faultless {α : Type} (x : Except Failure α) : Prop :=
  ∀ fault, x ≠ .error (.fault fault)

theorem Faultless.bind {α β : Type} {x : Except Failure α} {f : α → Except Failure β}
    (hx : Faultless x) (hf : ∀ a, Faultless (f a)) : Faultless (x >>= f) := by
  cases x with
  | error failure => exact fun fault h ↦ hx fault (by cases h; rfl)
  | ok a => exact hf a

theorem faultless_ok {α : Type} (a : α) : Faultless (.ok a) :=
  nofun

theorem Faultless.mapM {α β : Type} {f : α → Except Failure β} {as : List α}
    (h : ∀ a ∈ as, Faultless (f a)) : Faultless (as.mapM f) := by
  induction as with
  | nil => exact faultless_ok []
  | cons a as ih =>
    rw [List.mapM_cons]
    refine (h a List.mem_cons_self).bind fun b ↦ ?_
    exact (ih fun c hc ↦ h c (List.mem_cons_of_mem a hc)).bind fun bs ↦ faultless_ok (b :: bs)

theorem Ty.formBy_congr {f g : Ty → Except Failure (List Tree)} {t : Ty}
    (h : ∀ s ∈ t.children, f s = g s) : t.formBy f = t.formBy g := by
  cases t with
  | proc params result =>
    rw [formBy, formBy, mapM_congr fun s hs ↦ h s (List.mem_append_left _ hs),
      h result (by simp [children])]
  | tuple elems => rw [formBy, formBy, mapM_congr (show ∀ s ∈ elems, f s = g s from h)]
  | union parts => rw [formBy, formBy, mapM_congr (show ∀ s ∈ parts, f s = g s from h)]
  | inter parts => rw [formBy, formBy, mapM_congr (show ∀ s ∈ parts, f s = g s from h)]
  | pred inner => rw [formBy, formBy, h inner List.mem_cons_self]
  | _ => rfl

theorem Ty.formBy_faultless {f : Ty → Except Failure (List Tree)} {t : Ty}
    (h : ∀ s ∈ t.children, Faultless (f s)) : Faultless (t.formBy f) := by
  cases t with
  | absent => exact nofun
  | proc params result =>
    refine (Faultless.mapM fun s hs ↦ h s (List.mem_append_left _ hs)).bind fun forms ↦ ?_
    exact (h result (by simp [children])).bind fun form ↦ faultless_ok _
  | tuple elems => exact (Faultless.mapM h).bind fun forms ↦ faultless_ok _
  | union parts => exact (Faultless.mapM h).bind fun forms ↦ faultless_ok _
  | inter parts => exact (Faultless.mapM h).bind fun forms ↦ faultless_ok _
  | pred inner => exact (h inner List.mem_cons_self).bind fun form ↦ faultless_ok _
  | _ => exact faultless_ok _

namespace Env

variable {env : Env} {s t : Ty}

def form (env : Env) (t : Ty) : Except Failure (List Tree) :=
  env.formTo (env.depth [t]) t

/-- The text by which a type is ordered. -/
def key (env : Env) (t : Ty) : String :=
  answer (env.sortKeyTo (env.depth [t]) t)

theorem formTo_succ (ht : env.Founded t) (d : Nat) :
    env.formTo (d + 1) t = Ty.formBy (env.formTo d) (env.resolved t) := by
  rw [formTo, (resolved_spec ht).1]
  rfl

theorem formTo_settled {n : Nat} (ht : env.Founded t) (hn : env.rank t ≤ n) :
    (∀ d ≥ n + 1, env.formTo d t = env.formTo (n + 1) t) ∧ Faultless (env.formTo (n + 1) t) := by
  induction n generalizing t with
  | zero => exact absurd hn (Nat.not_le.2 (rank_pos env t))
  | succ n ih =>
    have hc (s : Ty) (hs : s ∈ (env.resolved t).children) :=
      ih (ht.resolved.child hs)
        (Nat.le_of_lt_succ (((rank_lt_of_child env hs).trans_le (resolved_spec ht).2.2.2).trans_le hn))
    refine ⟨fun d hd ↦ ?_, ?_⟩
    · obtain ⟨d, rfl⟩ : ∃ k, d = k + 1 := ⟨d - 1, by omega⟩
      rw [formTo_succ ht, formTo_succ ht]
      exact Ty.formBy_congr fun s hs ↦ (hc s hs).1 d (by omega)
    · rw [formTo_succ ht]
      exact Ty.formBy_faultless fun s hs ↦ (hc s hs).2

theorem formTo_eq_form (ht : env.Founded t) {d : Nat} (hd : env.rank t < d) :
    env.formTo d t = env.form t := by
  have h := (formTo_settled ht le_rfl).1
  rw [form, h d hd, h _ (rank_lt_depth List.mem_cons_self)]

theorem form_faultless (ht : env.Founded t) : Faultless (env.form t) := by
  rw [← formTo_eq_form ht (Nat.lt_succ_self _)]
  exact (formTo_settled ht le_rfl).2

theorem form_eq (ht : env.Founded t) : env.form t = Ty.formBy env.form (env.resolved t) := by
  rw [← formTo_eq_form ht (Nat.lt_succ_of_lt (Nat.lt_succ_self (env.rank t))), formTo_succ ht]
  refine Ty.formBy_congr fun s hs ↦ formTo_eq_form (ht.resolved.child hs) ?_
  exact (((rank_lt_of_child env hs).trans_le (resolved_spec ht).2.2.2).trans (Nat.lt_succ_self _))

theorem sortKeyTo_eq_key (ht : env.Founded t) {d : Nat} (hd : env.rank t < d) :
    env.sortKeyTo d t = .ok (env.key t) := by
  have hd' : env.rank t < env.depth [t] := rank_lt_depth List.mem_cons_self
  have heq : env.sortKeyTo d t = env.sortKeyTo (env.depth [t]) t := by
    rw [sortKeyTo, sortKeyTo, formTo_eq_form ht hd, formTo_eq_form ht hd']
  have hkey : ∃ text, env.sortKeyTo (env.depth [t]) t = .ok text := by
    have hf := form_faultless ht
    rw [sortKeyTo, formTo_eq_form ht hd']
    split
    · exact ⟨_, rfl⟩
    · exact ⟨_, rfl⟩
    · next fault he => exact absurd he (hf fault)
  obtain ⟨text, hk⟩ := hkey
  rw [heq]
  exact answer_spec hk

theorem key_of_form {trees : List Tree} (ht : env.Founded t) (h : env.form t = .ok trees) :
    env.key t = Tree.format trees := by
  have hk := sortKeyTo_eq_key ht (Nat.lt_succ_self (env.rank t))
  rw [sortKeyTo, formTo_eq_form ht (Nat.lt_succ_self _), h] at hk
  exact (Except.ok.inj hk).symm

end Env

end TypeAlgebra
