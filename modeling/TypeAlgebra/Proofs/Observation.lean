import TypeAlgebra.Proofs.NameMatching

namespace TypeAlgebra

theorem nodup_eraseDups (names : List String) : names.eraseDups.Nodup := by
  induction hn : names.length using Nat.strongRecOn generalizing names with
  | ind n ih =>
    cases names with
    | nil => exact List.nodup_nil
    | cons name names =>
      have hlength := List.length_filter_le (fun other ↦ !other == name) names
      rw [List.eraseDups_cons]
      refine List.nodup_cons.2 ⟨fun hm ↦ ?_, ih _ ?_ _ rfl⟩
      · simpa using List.mem_eraseDups.1 hm
      · rw [← hn, List.length_cons]
        omega

/-- Names that are sorted and without repetition are in strict order. -/
theorem pairwise_lt_mergeSort {names : List String} (h : names.Nodup) :
    (names.mergeSort fun a b ↦ a ≤ b).Pairwise (· < ·) := by
  have hle : (names.mergeSort fun a b ↦ a ≤ b).Pairwise fun a b ↦ decide (a ≤ b) = true :=
    List.pairwise_mergeSort (fun a b c hab hbc ↦ by simp only [decide_eq_true_eq] at *; exact String.le_trans hab hbc)
      (fun a b ↦ by simpa using String.le_total a b) names
  have hne : (names.mergeSort fun a b ↦ a ≤ b).Pairwise (· ≠ ·) := (List.mergeSort_perm _ _).nodup_iff.2 h
  exact (hle.and hne).imp fun hab ↦ Std.lt_of_le_of_ne (of_decide_eq_true hab.1) hab.2

namespace Ty

variable {t : Ty}

def written (t : Ty) : Except Failure (List Tree) :=
  match t.form? with
  | some trees => .ok trees
  | none => .error (.problem noValue)

theorem mapM_written (ts : List Ty) :
    ts.mapM written =
      match formEach? ts with
      | some forms => .ok forms
      | none => .error (.problem noValue) := by
  induction ts with
  | nil => rfl
  | cons t ts ih =>
    rw [List.mapM_cons, ih, formEach?, written]
    cases t.form? with
    | none => rfl
    | some form => cases formEach? ts <;> rfl

theorem formBy_written (t : Ty) : t.formBy written = t.written := by
  cases t with
  | proc params result =>
    rw [formBy, mapM_written, written, written, form?]
    cases formEach? params with
    | none => rfl
    | some forms => cases result.form? <;> rfl
  | tuple elems =>
    rw [formBy, mapM_written, written, form?]
    cases formEach? elems <;> rfl
  | union parts =>
    rw [formBy, mapM_written, written, form?]
    cases formEach? parts <;> rfl
  | inter parts =>
    rw [formBy, mapM_written, written, form?]
    cases formEach? parts <;> rfl
  | pred inner =>
    rw [formBy, written, written, form?]
    cases inner.form? <;> rfl
  | _ => rfl

theorem exists_written (h : t.Whole) : ∃ trees, t.written = .ok trees := by
  induction t using induction_children with
  | step t ih =>
    rw [← formBy_written]
    exact exists_formBy h fun s hs ↦ ih s hs (h.child hs)

/-- What has something missing cannot be written. -/
theorem written_of_not_whole (h : ¬t.Whole) : t.written = .error (.problem noValue) := by
  rw [written]
  cases hf : t.form? with
  | none => rfl
  | some trees => exact absurd (whole_of_form? (by rw [hf]; rfl)) h

theorem text_of_written {trees : List Tree} (h : t.written = .ok trees) : t.text = Tree.format trees := by
  rw [written] at h
  rw [text]
  cases hf : t.form? with
  | none =>
    rw [hf] at h
    cases h
  | some found =>
    rw [hf] at h
    cases h
    rfl

end Ty

namespace Env

variable {env : Env} {s t u : Ty} {v : Var}

/-- The function puts the contents of bound variables in their places, and goes on so in the contents. -/
structure Resolution (env : Env) (f : Ty → Ty) : Prop where
  bound : ∀ v u, env.Founded (.var v) → env.Binds v u → f (.var v) = f u
  unbound : ∀ v, env.cells.contents v = .ok none → f (.var v) = .var v
  node : ∀ t, env.Founded t → t.isVar = false → f t = t.mapChildren f

/-- With more steps bindings are followed to the same end. -/
theorem follow_succ {cells : Cells} {steps : Nat} (h : cells.follow steps t = .ok u) :
    cells.follow (steps + 1) t = .ok u := by
  induction steps generalizing t with
  | zero => cases h
  | succ steps ih =>
    cases t with
    | var v =>
      rw [Cells.follow] at h ⊢
      rcases hc : cells.contents v with _ | _ | w
      · rw [hc] at h
        cases h
      · rw [hc] at h
        exact h
      · rw [hc] at h
        exact ih h
    | _ => exact h

theorem resolved_var (hv : env.Founded (.var v)) (h : env.Binds v u) : env.resolved (.var v) = env.resolved u := by
  have hfollow := (resolved_spec hv).1
  rw [Env.deref, Cells.deref, Cells.follow, h] at hfollow
  have hderef : env.deref u = .ok (env.resolved (.var v)) := by
    cases u with
    | var w => exact follow_succ hfollow
    | _ => exact hfollow
  exact (Except.ok.inj (hderef.symm.trans (resolved_spec (hv.contents h)).1))

theorem resolution_substituted (env : Env) : env.Resolution env.substituted where
  bound v u hv h := by rw [substituted_eq hv, substituted_eq (hv.contents h), resolved_var hv h]
  unbound v h := by
    have hfree : env.Free (.var v) := fun w hw ↦ by rwa [List.mem_singleton.1 hw]
    exact hfree.substituted_eq
  node t ht h := substituted_of_not_var ht h

/-- A type is written like what it stands for. -/
theorem form_eq_written (ht : env.Founded t) : env.form t = (env.substituted t).written := by
  induction hn : env.rank t using Nat.strongRecOn generalizing t with
  | ind n ih =>
    rw [form_eq ht, substituted_eq ht, ← Ty.formBy_written, Ty.formBy_mapChildren]
    refine Ty.formBy_congr fun s hs ↦ ih (env.rank s) ?_ (ht.resolved.child hs) rfl
    exact hn ▸ rank_child_resolved ht hs

theorem unparse_eq_written (ht : env.Founded t) :
    env.unparse t = (env.substituted t).written.map Tree.format := by
  rw [unparse, formTo_eq_form ht (rank_lt_depth List.mem_cons_self), form_eq_written ht]

/-- Types are equal if they stand for types with the same names at the same places. -/
theorem same_iff_substituted (hs : env.Founded s) (ht : env.Founded t) :
    env.same s t = true ↔ (env.substituted s).detached = (env.substituted t).detached := by
  rw [← same_substituted hs ht, same_iff (free_substituted hs) (free_substituted ht)]

/--
Two types are equal or equivalent if what they stand for is, the free names of a type are the names in what it stands
for, in order and each once, and its text is the text of what it stands for; there is none if something is missing
there. Equality is an equivalence relation.
-/
theorem observed_as_substituted (hs : env.Founded s) (ht : env.Founded t) (hu : env.Founded u) :
    env.Resolution env.substituted ∧
      (∃ verdict, env.equal s t = .ok verdict ∧
        env.equal (env.substituted s) (env.substituted t) = .ok verdict) ∧
      (∃ verdict, env.equivalent s t = .ok verdict ∧
        env.equivalent (env.substituted s) (env.substituted t) = .ok verdict) ∧
      (∃ names, env.freeNames t = .ok names ∧ names.Pairwise (· < ·) ∧
        ∀ name, name ∈ names ↔ ∃ v ∈ (env.substituted t).vars, v.name = name) ∧
      ((env.substituted t).Whole → env.unparse t = .ok (env.substituted t).text) ∧
      (¬(env.substituted t).Whole → env.unparse t = .error (.problem (.unprintable "no value"))) ∧
      env.equal s s = .ok true ∧ env.equal s t = env.equal t s ∧
      (env.equal s t = .ok true → env.equal t u = .ok true → env.equal s u = .ok true) := by
  have hunparse := unparse_eq_written ht
  refine ⟨resolution_substituted env, ⟨_, equal_eq hs ht, ?_⟩, ⟨_, equivalent_eq hs ht, ?_⟩, ?_, fun hw ↦ ?_,
    fun hw ↦ ?_, ?_, ?_, fun hst htu ↦ ?_⟩
  · rw [equal_eq (founded_substituted hs) (founded_substituted ht), same_substituted hs ht]
  · rw [equivalent_substituted hs ht, equivalent_eq hs ht]
  · refine ⟨_, freeNames_eq ht, pairwise_lt_mergeSort (nodup_eraseDups _), fun name ↦ ?_⟩
    rw [List.mem_mergeSort, List.mem_eraseDups, List.mem_map]
  · obtain ⟨trees, hwritten⟩ := Ty.exists_written hw
    rw [hunparse, hwritten, Ty.text_of_written hwritten]
    rfl
  · rw [hunparse, Ty.written_of_not_whole hw]
    rfl
  · rw [equal_eq hs hs, same_refl hs]
  · rw [equal_eq hs ht, equal_eq ht hs]
    refine congrArg Except.ok (Bool.eq_iff_iff.2 ?_)
    rw [same_iff_substituted hs ht, same_iff_substituted ht hs]
    exact eq_comm
  · rw [equal_eq hs ht] at hst
    rw [equal_eq ht hu] at htu
    have hsame := ((same_iff_substituted hs ht).1 (Except.ok.inj hst)).trans
      ((same_iff_substituted ht hu).1 (Except.ok.inj htu))
    rw [equal_eq hs hu, (same_iff_substituted hs hu).2 hsame]

def boundChain : Env :=
  ⟨[⟨"f", some (.var ⟨"g", some 1⟩)⟩, ⟨"g", some (.proc [.var ⟨"z", some 2⟩] (.atomic .number))⟩, ⟨"z", none⟩], 0⟩

theorem observed_as_substituted_chain :
    boundChain.unparse (.var ⟨"f", some 0⟩) = .ok "(z -> number)" ∧
      boundChain.equal (.proc [.var ⟨"z", some 2⟩] (.atomic .number)) (.var ⟨"f", some 0⟩) = .ok true := by
  have hproc : boundChain.Free (.proc [.var ⟨"z", some 2⟩] (.atomic .number)) := by decide +kernel
  have hwhole : (Ty.proc [.var ⟨"z", some 2⟩] (.atomic .number)).Whole :=
    .node Ty.noConfusion (List.forall_mem_cons.2 ⟨.node Ty.noConfusion (List.forall_mem_nil _),
      List.forall_mem_singleton.2 (Ty.whole_atomic _)⟩)
  have hg : boundChain.Sound (.var ⟨"g", some 1⟩) :=
    sound_var rfl (hproc.sound hwhole) fun h ↦ absurd (hproc.mem_vars h) (by decide)
  have hf : boundChain.Sound (.var ⟨"f", some 0⟩) := by
    refine sound_var rfl hg fun h ↦ ?_
    have hbinds : boundChain.Binds ⟨"g", some 1⟩ (.proc [.var ⟨"z", some 2⟩] (.atomic .number)) := rfl
    rcases (reaches_var hbinds).1 h with he | h
    · exact absurd he (by decide)
    · exact absurd (hproc.mem_vars h) (by decide)
  have hstands : boundChain.substituted (.var ⟨"f", some 0⟩) =
      .proc [.var ⟨"z", some 2⟩] (.atomic .number) := by decide +kernel
  obtain ⟨-, -, -, -, hunparse, -, -, hcomm, -⟩ :=
    observed_as_substituted hproc.founded hf.toFounded hg.toFounded
  rw [hstands] at hunparse
  rw [hunparse hwhole, hcomm]
  decide +kernel

end Env

end TypeAlgebra
