import TypeAlgebra.Ledger
import Mathlib.Data.List.Basic

namespace TypeAlgebra.Ledger

namespace Action

def target? : Action → Option String
  | start target => some target
  | record _ _ target => some target
  | merge _ _ target => some target
  | prepare _ _ _ => none
  | expose _ _ => none

def receiver? : Action → Option String
  | record name _ _ => some name
  | merge name _ _ => some name
  | _ => none

/-- No list is started in an array that another list has. -/
def Apart (ledger : Ledger) : Action → Prop
  | record name (.held held) _ => ledger.index? name = none →
    ∀ slice ∈ ledger.slices.lookup held, ∀ other ∈ ledger.lists, other.array ≠ slice.array
  | _ => True

instance (ledger : Ledger) : (action : Action) → Decidable (action.Apart ledger)
  | record name (.held held) _ => inferInstanceAs <| Decidable <| ledger.index? name = none →
    ∀ slice ∈ ledger.slices.lookup held, ∀ other ∈ ledger.lists, other.array ≠ slice.array
  | record _ (.listed _) _ | start _ | merge _ _ _ | prepare _ _ _ | expose _ _ => .isTrue trivial

end Action

def given (ledger : Ledger) : Argument → List Problem
  | .listed problems => problems
  | .held name => ((ledger.slices.lookup name).map ledger.read).getD []

def added (ledger : Ledger) : Action → List Problem
  | .record _ argument _ => ledger.given argument
  | .merge _ source _ => (ledger.problems? source).getD []
  | _ => []

def Apart : Ledger → List Action → Prop
  | _, [] => True
  | ledger, action :: actions => action.Apart ledger ∧ Apart (ledger.perform action) actions

instance decidableApart : (ledger : Ledger) → (actions : List Action) → Decidable (ledger.Apart actions)
  | _, [] => .isTrue trivial
  | ledger, action :: actions =>
    haveI := decidableApart (ledger.perform action) actions
    inferInstanceAs (Decidable (action.Apart ledger ∧ Apart (ledger.perform action) actions))

def after (room : Nat → Nat → Nat) (actions : List Action) : Ledger :=
  actions.foldl perform { room }

variable {ledger next : Ledger} {slice other : Slice} {name target : String} {index array : Nat}
variable {problems old contents : List Problem}

section Memory

def Holds (ledger : Ledger) (slice : Slice) : Prop :=
  ∃ cells, ledger.arrays[slice.array]? = some cells ∧ slice.length ≤ cells.length

theorem Holds.lt (h : ledger.Holds slice) : slice.array < ledger.arrays.length := by
  obtain ⟨cells, hcells, -⟩ := h
  exact (List.getElem?_eq_some_iff.1 hcells).1

/-- No array has got fewer cells, and the others than `array` are what they were. -/
def Frame (ledger next : Ledger) (array : Nat) : Prop :=
  ∀ i cells, ledger.arrays[i]? = some cells →
    ∃ cells', next.arrays[i]? = some cells' ∧ cells.length ≤ cells'.length ∧ (i ≠ array → cells' = cells)

theorem Frame.holds (h : Frame ledger next array) (hs : ledger.Holds slice) : next.Holds slice := by
  obtain ⟨cells, hcells, hle⟩ := hs
  obtain ⟨cells', hcells', hle', -⟩ := h _ _ hcells
  exact ⟨cells', hcells', Nat.le_trans hle hle'⟩

theorem Frame.read (h : Frame ledger next array) (hs : ledger.Holds slice) (hne : slice.array ≠ array) :
    next.read slice = ledger.read slice := by
  obtain ⟨cells, hcells, -⟩ := hs
  obtain ⟨cells', hcells', -, hsame⟩ := h _ _ hcells
  rw [Ledger.read, Ledger.read, hcells, hcells', hsame hne]

theorem frame_allocate (ledger : Ledger) (problems : List Problem) (spare : Nat) :
    Frame ledger (ledger.allocate problems spare).2 ledger.arrays.length := by
  intro i cells hcells
  have hlt := (List.getElem?_eq_some_iff.1 hcells).1
  exact ⟨cells, (List.getElem?_append_left hlt).trans hcells, Nat.le_refl _, fun _ ↦ rfl⟩

theorem getElem?_allocate (ledger : Ledger) (problems : List Problem) (spare : Nat) :
    (ledger.allocate problems spare).2.arrays[ledger.arrays.length]? = some problems :=
  List.getElem?_concat_length

theorem holds_allocate (ledger : Ledger) (problems : List Problem) (spare : Nat) :
    (ledger.allocate problems spare).2.Holds (ledger.allocate problems spare).1 :=
  ⟨problems, getElem?_allocate ledger problems spare, Nat.le_refl _⟩

theorem read_allocate (ledger : Ledger) (problems : List Problem) (spare : Nat) :
    (ledger.allocate problems spare).2.read (ledger.allocate problems spare).1 = problems := by
  change ((ledger.allocate problems spare).2.arrays[ledger.arrays.length]?.getD []).take problems.length = problems
  rw [getElem?_allocate, Option.getD_some, List.take_length]

theorem take_overwritten {cells : List Problem} {start : Nat} (h : start ≤ cells.length) (problems : List Problem) :
    (overwritten cells start problems).take (start + problems.length) = cells.take start ++ problems := by
  have hlength : start + problems.length = (cells.take start ++ problems).length := by
    rw [List.length_append, List.length_take, Nat.min_eq_left h]
  rw [overwritten, hlength, List.take_left]

theorem length_overwritten {cells : List Problem} {start : Nat} (h : start ≤ cells.length) (problems : List Problem) :
    (overwritten cells start problems).length = max cells.length (start + problems.length) := by
  simp only [overwritten, List.length_append, List.length_take, List.length_drop]
  omega

structure Appended (ledger : Ledger) (slice : Slice) (problems : List Problem) (next : Slice × Ledger) : Prop where
  frame : Frame ledger next.2 slice.array
  holds : next.2.Holds next.1
  read : next.2.read next.1 = ledger.read slice ++ problems
  array : next.1.array = slice.array ∨ ledger.arrays.length ≤ next.1.array
  lists : next.2.lists = ledger.lists
  names : next.2.names = ledger.names
  slices : next.2.slices = ledger.slices

theorem appended_in_place (h : ledger.Holds slice) (problems : List Problem) :
    Appended ledger slice problems ({ slice with length := slice.length + problems.length },
      { ledger with arrays := ledger.arrays.modify slice.array (overwritten · slice.length problems) }) := by
  obtain ⟨cells, hcells, hle⟩ := h
  have hlength := length_overwritten hle problems
  have hat : (ledger.arrays.modify slice.array (overwritten · slice.length problems))[slice.array]? =
      some (overwritten cells slice.length problems) := by
    rw [List.getElem?_modify_eq, hcells]
    rfl
  refine ⟨fun i before hbefore ↦ ?_, ⟨_, hat, hlength ▸ Nat.le_max_right _ _⟩, ?_, .inl rfl, rfl, rfl, rfl⟩
  · by_cases hi : i = slice.array
    · subst hi
      obtain rfl := Option.some.inj (hcells.symm.trans hbefore)
      exact ⟨_, hat, hlength ▸ Nat.le_max_left _ _, fun hne ↦ absurd rfl hne⟩
    · exact ⟨before, (List.getElem?_modify_ne _ _ (Ne.symm hi)).trans hbefore, Nat.le_refl _, fun _ ↦ rfl⟩
  · rw [read, read]
    dsimp only
    rw [hat, hcells, Option.getD_some, Option.getD_some, take_overwritten hle]

theorem appended_anew (ledger : Ledger) (slice : Slice) (problems : List Problem) (spare : Nat) :
    Appended ledger slice problems (ledger.allocate (ledger.read slice ++ problems) spare) := by
  refine ⟨fun i before hbefore ↦ ?_, holds_allocate _ _ _, read_allocate _ _ _, .inr (Nat.le_refl _), rfl, rfl, rfl⟩
  obtain ⟨after, hafter, hle, hsame⟩ := frame_allocate ledger _ _ i before hbefore
  have hlt := (List.getElem?_eq_some_iff.1 hbefore).1
  exact ⟨after, hafter, hle, fun _ ↦ hsame (Nat.ne_of_lt hlt)⟩

theorem appended (h : ledger.Holds slice) (problems : List Problem) :
    Appended ledger slice problems (ledger.append slice problems) := by
  rw [append]
  split
  · exact appended_in_place h problems
  · exact appended_anew ledger slice problems _

end Memory

section Names

theorem lookup_filter_ne (h : name ≠ target) (names : List (String × Option Nat)) :
    (names.filter (·.1 ≠ target)).lookup name = names.lookup name := by
  induction names with
  | nil => rfl
  | cons entry names ih =>
    by_cases he : entry.1 = target
    · have hne : (name == entry.1) = false := beq_false_of_ne (he ▸ h)
      rw [List.filter_cons_of_neg (by simpa using he), ih, List.lookup_cons, hne]
    · rw [List.filter_cons_of_pos (by simpa using he), List.lookup_cons, List.lookup_cons, ih]

@[simp]
theorem index?_assign (ledger : Ledger) (target : String) (index : Option Nat) (name : String) :
    (ledger.assign target index).index? name = if name = target then index else ledger.index? name := by
  split
  · next h =>
    subst h
    simp [index?, assign]
  · next h =>
    have hne : (name == target) = false := beq_false_of_ne h
    rw [index?, assign, List.lookup_cons, hne, lookup_filter_ne h]
    rfl

theorem problems?_eq (h : ledger.index? name = some index) : ledger.problems? name = ledger.contents? index := by
  rw [problems?, h, Option.bind_some]

structure Unchanged (ledger next : Ledger) : Prop where
  lists : next.lists = ledger.lists
  index? : ∀ name, next.index? name = ledger.index? name
  contents? : ∀ index, next.contents? index = ledger.contents? index

/--
The ledger `next` differs from `ledger` in the list at `index` and in `target`, which stands for this list. The names of
the list see its contents, and the others see what they saw.
-/
structure Extended (ledger next : Ledger) (index : Nat) (contents : List Problem) (target : String) : Prop where
  names : ∀ name, next.index? name = if name = target then some index else ledger.index? name
  lists : ∀ other, other ≠ index → next.contents? other = ledger.contents? other
  seen : ∀ name, next.index? name = some index → next.problems? name = some contents
  unseen : ∀ name, next.index? name ≠ some index → next.problems? name = ledger.problems? name

/-- What the names see follows from what the lists are. -/
theorem Extended.of_lists (hnames : ∀ name, next.index? name = if name = target then some index else ledger.index? name)
    (hlists : ∀ other, other ≠ index → next.contents? other = ledger.contents? other)
    (hcontents : next.contents? index = some contents) : Extended ledger next index contents target where
  names := hnames
  lists := hlists
  seen name h := (problems?_eq h).trans hcontents
  unseen name h := by
    -- The target stands for the list, so the name is another one and stands for what it stood for.
    have hne : name ≠ target := fun he ↦ h (by rw [hnames, if_pos he])
    rw [hnames, if_neg hne] at h
    rw [problems?, problems?, hnames, if_neg hne]
    cases hi : ledger.index? name with
    | none => rfl
    | some other => exact hlists other fun he ↦ h (by rw [hi, he])

theorem Extended.contents? (h : Extended ledger next index contents target) :
    next.contents? index = some contents := by
  have htarget : next.index? target = some index := by rw [h.names, if_pos rfl]
  rw [← problems?_eq htarget]
  exact h.seen target htarget

theorem Unchanged.extended {middle : Ledger} (hu : Unchanged ledger middle)
    (h : Extended middle next index contents target) : Extended ledger next index contents target := by
  refine .of_lists (fun name ↦ ?_) (fun other hne ↦ (h.lists other hne).trans (hu.contents? other)) h.contents?
  rw [h.names, hu.index?]

end Names

section Sound

/-- Names stand for lists that are there, all lists and slices are of written cells, and no array has two lists. -/
structure Sound (ledger : Ledger) : Prop where
  names : ∀ name index, ledger.index? name = some index → ∃ slice, ledger.lists[index]? = some slice
  lists : ∀ (index : Nat) slice, ledger.lists[index]? = some slice → ledger.Holds slice
  slices : ∀ name slice, ledger.slices.lookup name = some slice → ledger.Holds slice
  apart : ∀ (i j : Nat) s t, ledger.lists[i]? = some s → ledger.lists[j]? = some t → s.array = t.array → i = j

theorem sound_empty (room : Nat → Nat → Nat) : Sound { room } where
  names _ _ h := by cases h
  lists _ _ h := by cases h
  slices _ _ h := by cases h
  apart _ _ _ _ h := by cases h

theorem contents?_eq (h : ledger.lists[index]? = some slice) : ledger.contents? index = some (ledger.read slice) := by
  rw [contents?, h, Option.map_some]

theorem Sound.assign (h : Sound ledger) (target : String) {index? : Option Nat}
    (hi : ∀ index : Nat, index? = some index → ∃ slice, ledger.lists[index]? = some slice) :
    Sound (ledger.assign target index?) where
  names name index hn := by
    rw [index?_assign] at hn
    split at hn
    · exact hi index hn
    · exact h.names name index hn
  lists := h.lists
  slices := h.slices
  apart := h.apart

theorem Sound.hold (h : Sound ledger) (hs : ledger.Holds slice) (target : String) :
    Sound (ledger.hold target slice) where
  names := h.names
  lists := h.lists
  slices name held hheld := by
    change List.lookup name ((target, slice) :: ledger.slices) = _ at hheld
    rw [List.lookup_cons] at hheld
    split at hheld
    · cases hheld
      exact hs
    · exact h.slices name held hheld
  apart := h.apart

theorem Sound.allocate (h : Sound ledger) (problems : List Problem) (spare : Nat) :
    Sound (ledger.allocate problems spare).2 where
  names := h.names
  lists index slice hslice := (frame_allocate ledger problems spare).holds (h.lists index slice hslice)
  slices name slice hslice := (frame_allocate ledger problems spare).holds (h.slices name slice hslice)
  apart := h.apart

theorem Sound.unchanged_allocate (h : Sound ledger) (problems : List Problem) (spare : Nat) :
    Unchanged ledger (ledger.allocate problems spare).2 where
  lists := rfl
  index? _ := rfl
  contents? index := by
    change ledger.lists[index]?.map _ = ledger.lists[index]?.map _
    cases hi : ledger.lists[index]? with
    | none => rfl
    | some slice =>
      have hholds := h.lists index slice hi
      exact congrArg some ((frame_allocate ledger problems spare).read hholds (Nat.ne_of_lt hholds.lt))

theorem getElem?_concat_cases {lists : List Slice} (h : (lists ++ [slice])[index]? = some other) :
    lists[index]? = some other ∨ index = lists.length ∧ other = slice := by
  rw [List.getElem?_append] at h
  split at h
  · exact .inl h
  · next hge =>
    obtain ⟨hlt, hget⟩ := List.getElem?_eq_some_iff.1 h
    rw [List.length_singleton] at hlt
    exact .inr ⟨by omega, by simpa using hget.symm⟩

theorem Sound.concat (h : Sound ledger) (hs : ledger.Holds slice)
    (ha : ∀ other ∈ ledger.lists, other.array ≠ slice.array) :
    Sound { ledger with lists := ledger.lists ++ [slice] } where
  names name index hi := by
    obtain ⟨s, hget⟩ := h.names name index hi
    have hlt := (List.getElem?_eq_some_iff.1 hget).1
    exact ⟨s, (List.getElem?_append_left hlt).trans hget⟩
  lists index s hi := by
    obtain hi | ⟨-, rfl⟩ := getElem?_concat_cases hi
    · exact h.lists index s hi
    · exact hs
  slices := h.slices
  apart i j s t hi hj he := by
    obtain hsi | ⟨hin, rfl⟩ := getElem?_concat_cases hi <;> obtain htj | ⟨hjn, rfl⟩ := getElem?_concat_cases hj
    · exact h.apart i j s t hsi htj he
    · exact absurd he (ha s (List.mem_of_getElem? hsi))
    · exact absurd he.symm (ha t (List.mem_of_getElem? htj))
    · exact hin.trans hjn.symm

theorem Sound.keep (h : Sound ledger) (hs : ledger.Holds slice)
    (ha : ∀ other ∈ ledger.lists, other.array ≠ slice.array) (target : String) : Sound (ledger.keep slice target) := by
  refine (h.concat hs ha).assign target fun index hi ↦ ?_
  cases hi
  exact ⟨slice, List.getElem?_concat_length⟩

theorem extended_keep (ledger : Ledger) (slice : Slice) (target : String) :
    Extended ledger (ledger.keep slice target) ledger.lists.length (ledger.read slice) target := by
  refine .of_lists (index?_assign _ target _) (fun other hne ↦ ?_) (contents?_eq List.getElem?_concat_length)
  change (ledger.lists ++ [slice])[other]?.map ledger.read = ledger.lists[other]?.map ledger.read
  rw [List.getElem?_append]
  split
  · rfl
  · rw [List.getElem?_eq_none (by simp; omega), List.getElem?_eq_none (by omega)]

theorem extend_eq (h : ledger.lists[index]? = some slice) (problems : List Problem) :
    ledger.extend index problems = { (ledger.append slice problems).2 with
      lists := (ledger.append slice problems).2.lists.set index (ledger.append slice problems).1 } := by
  rw [extend, h]

section Longer

variable {longer : Slice} {after : Slice × Ledger}

theorem getElem?_set_longer (h : ledger.lists[index]? = some slice) (i : Nat) :
    (ledger.lists.set index longer)[i]? = if index = i then some longer else ledger.lists[i]? := by
  rw [List.getElem?_set, if_pos (List.getElem?_eq_some_iff.1 h).1]

/-- The longer slice is in the array of the old one or in a new one, so no other list has its array. -/
theorem Sound.eq_of_appended (h : Sound ledger) (hi : ledger.lists[index]? = some slice)
    (happ : Appended ledger slice problems after) {j : Nat} (hj : ledger.lists[j]? = some other)
    (he : after.1.array = other.array) : index = j := by
  obtain harray | harray := happ.array
  · exact h.apart index j slice other hi hj (harray.symm.trans he)
  · have hlt := (h.lists j other hj).lt
    omega

theorem Sound.set (h : Sound ledger) (hi : ledger.lists[index]? = some slice)
    (happ : Appended ledger slice problems after) :
    Sound { after.2 with lists := ledger.lists.set index after.1 } where
  names name i hn := by
    have hbefore : ledger.index? name = some i := by
      rw [index?, ← happ.names]
      exact hn
    obtain ⟨s, hs⟩ := h.names name i hbefore
    dsimp only
    rw [getElem?_set_longer hi]
    split
    · exact ⟨after.1, rfl⟩
    · exact ⟨s, hs⟩
  lists i s hs := by
    dsimp only at hs
    rw [getElem?_set_longer hi] at hs
    split at hs
    · cases hs
      exact happ.holds
    · exact happ.frame.holds (h.lists i s hs)
  slices name s hs := by
    have hbefore : ledger.slices.lookup name = some s := by
      rw [← happ.slices]
      exact hs
    exact happ.frame.holds (h.slices name s hbefore)
  apart i j s t hs ht he := by
    dsimp only at hs ht
    rw [getElem?_set_longer hi] at hs ht
    split at hs <;> split at ht
    · next hsi hti => exact hsi.symm.trans hti
    · next hsi _ =>
      cases hs
      exact hsi.symm.trans (h.eq_of_appended hi happ ht he)
    · next _ hti =>
      cases ht
      exact (h.eq_of_appended hi happ hs he.symm).symm.trans hti
    · exact h.apart i j s t hs ht he

theorem Sound.contents?_set (h : Sound ledger) (hi : ledger.lists[index]? = some slice)
    (happ : Appended ledger slice problems after) (i : Nat) :
    contents? { after.2 with lists := ledger.lists.set index after.1 } i =
      if index = i then some (ledger.read slice ++ problems) else ledger.contents? i := by
  change (ledger.lists.set index after.1)[i]?.map after.2.read = _
  rw [getElem?_set_longer hi]
  split
  · exact congrArg some happ.read
  · next hne =>
    rw [contents?]
    cases hs : ledger.lists[i]? with
    | none => rfl
    | some s =>
      refine congrArg some (happ.frame.read (h.lists i s hs) fun he ↦ hne ?_)
      exact h.apart index i slice s hi hs he.symm

end Longer

theorem Sound.extended (h : Sound ledger) (hi : ledger.lists[index]? = some slice) (problems : List Problem)
    (target : String) : Extended ledger ((ledger.extend index problems).assign target (some index)) index
      (ledger.read slice ++ problems) target := by
  have happ := appended (h.lists index slice hi) problems
  have hcontents := h.contents?_set hi happ
  rw [extend_eq hi, happ.lists]
  refine .of_lists (fun name ↦ ?_) (fun other hne ↦ ?_) ?_
  · rw [index?_assign]
    refine ite_congr rfl (fun _ ↦ rfl) fun _ ↦ ?_
    rw [index?, index?, ← happ.names]
  · exact (hcontents other).trans (if_neg hne.symm)
  · exact (hcontents index).trans (if_pos rfl)

theorem Sound.extend_assign (h : Sound ledger) (hi : ledger.lists[index]? = some slice) (problems : List Problem)
    (target : String) : Sound ((ledger.extend index problems).assign target (some index)) := by
  have happ := appended (h.lists index slice hi) problems
  have hset : Sound (ledger.extend index problems) := by
    rw [extend_eq hi, happ.lists]
    exact h.set hi happ
  refine hset.assign target fun i he ↦ ?_
  cases he
  obtain ⟨longer, hlonger, -⟩ := Option.map_eq_some_iff.1 (h.extended hi problems target).contents?
  exact ⟨longer, hlonger⟩

end Sound

section Step

variable {action : Action} {argument : Argument}

structure Passed (ledger : Ledger) (argument : Argument) (next : Slice × Ledger) : Prop where
  sound : Sound next.2
  unchanged : Unchanged ledger next.2
  holds : next.2.Holds next.1
  read : next.2.read next.1 = ledger.given argument

theorem Sound.pass (h : Sound ledger) (argument : Argument) : Passed ledger argument (ledger.pass argument) := by
  cases argument with
  | listed problems =>
    exact ⟨h.allocate problems 0, h.unchanged_allocate problems 0, holds_allocate _ _ _, read_allocate _ _ _⟩
  | held name =>
    rw [Ledger.pass]
    cases hl : ledger.slices.lookup name with
    | none =>
      refine ⟨h.allocate [] 0, h.unchanged_allocate [] 0, holds_allocate _ _ _, ?_⟩
      rw [read_allocate, given, hl]
      rfl
    | some slice =>
      refine ⟨h, ⟨rfl, fun _ ↦ rfl, fun _ ↦ rfl⟩, h.slices name slice hl, ?_⟩
      rw [given, hl]
      rfl

theorem Sound.ne_allocate (h : Sound ledger) : ∀ other ∈ ledger.lists, other.array ≠ ledger.arrays.length := by
  intro other hother
  obtain ⟨index, hi⟩ := List.getElem?_of_mem hother
  exact Nat.ne_of_lt (h.lists index other hi).lt

theorem Sound.ne_pass (h : Sound ledger) (hn : ledger.index? name = none)
    (ha : (Action.record name argument target).Apart ledger) :
    ∀ other ∈ (ledger.pass argument).2.lists, other.array ≠ (ledger.pass argument).1.array := by
  cases argument with
  | listed problems => exact h.ne_allocate
  | held held =>
    rw [Ledger.pass]
    cases hl : ledger.slices.lookup held with
    | none => exact h.ne_allocate
    | some slice => exact ha hn slice hl

theorem Sound.record_of_some (h : Sound ledger) (hi : ledger.index? name = some index) (argument : Argument)
    (target : String) : ledger.record name argument target =
      ((ledger.pass argument).2.extend index (ledger.given argument)).assign target (some index) := by
  rw [record]
  dsimp only
  rw [(h.pass argument).unchanged.index?, hi, (h.pass argument).read]

theorem Sound.record_of_none (h : Sound ledger) (hn : ledger.index? name = none) (argument : Argument)
    (target : String) :
    ledger.record name argument target = (ledger.pass argument).2.keep (ledger.pass argument).1 target := by
  rw [record]
  dsimp only
  rw [(h.pass argument).unchanged.index?, hn]

theorem merge_of_none (h : ledger.index? name = none) (source target : String) :
    ledger.merge name source target = ledger.assign target (ledger.index? source) := by
  rw [merge, h]

/-- A list that nothing is added to gets another name at most. -/
theorem merge_of_some (h : ledger.index? name = some index) (source target : String) :
    ledger.merge name source target = ledger.assign target (some index) ∧ (ledger.problems? source).getD [] = [] ∨
      ledger.merge name source target =
        (ledger.extend index ((ledger.problems? source).getD [])).assign target (some index) := by
  rw [merge, h]
  dsimp only
  cases hp : ledger.problems? source with
  | none => exact .inl ⟨rfl, rfl⟩
  | some problems =>
    cases problems with
    | nil => exact .inl ⟨rfl, rfl⟩
    | cons problem problems => exact .inr rfl

theorem Sound.extended_record (h : Sound ledger) (hi : ledger.index? name = some index)
    (hold : ledger.contents? index = some old) (argument : Argument) (target : String) :
    Extended ledger (ledger.record name argument target) index (old ++ ledger.given argument) target := by
  have hp := h.pass argument
  obtain ⟨slice, hslice⟩ := hp.sound.names name index ((hp.unchanged.index? name).trans hi)
  have hread : (ledger.pass argument).2.read slice = old := by
    rw [← hp.unchanged.contents?, contents?_eq hslice] at hold
    exact Option.some.inj hold
  rw [h.record_of_some hi, ← hread]
  exact hp.unchanged.extended (hp.sound.extended hslice _ target)

/-- The new list is the slice of the problems, be it one that others hold. -/
theorem Sound.extended_start (h : Sound ledger) (hn : ledger.index? name = none) (argument : Argument)
    (target : String) :
    Extended ledger (ledger.record name argument target) ledger.lists.length (ledger.given argument) target := by
  have hp := h.pass argument
  rw [h.record_of_none hn, ← hp.read, ← hp.unchanged.lists]
  exact hp.unchanged.extended (extended_keep _ _ target)

/-- The problems of `source` are those that its list had before, also if this is the list that they are added to. -/
theorem Sound.extended_merge (h : Sound ledger) (hi : ledger.index? name = some index)
    (hold : ledger.contents? index = some old) (source target : String) :
    Extended ledger (ledger.merge name source target) index (old ++ (ledger.problems? source).getD []) target := by
  obtain ⟨hm, hnone⟩ | hm := merge_of_some hi source target
  · rw [hm, hnone, List.append_nil]
    exact .of_lists (index?_assign ledger target _) (fun _ _ ↦ rfl) hold
  · obtain ⟨slice, hslice⟩ := h.names name index hi
    rw [contents?_eq hslice] at hold
    obtain rfl := Option.some.inj hold
    rw [hm]
    exact h.extended hslice _ target

theorem Sound.extended_new (h : Sound ledger) (target : String) :
    Extended ledger (ledger.perform (.start target)) ledger.lists.length [] target :=
  (h.unchanged_allocate [] 0).extended (extended_keep _ (ledger.allocate [] 0).1 target)

theorem Sound.adds (h : Sound ledger) (hr : action.receiver? = some name) (hi : ledger.index? name = some index) :
    ∃ old target, ledger.contents? index = some old ∧ action.target? = some target ∧
      Extended ledger (ledger.perform action) index (old ++ ledger.added action) target := by
  obtain ⟨slice, hslice⟩ := h.names name index hi
  have hold := contents?_eq hslice
  cases action with
  | record receiver argument target =>
    cases hr
    exact ⟨_, target, hold, rfl, h.extended_record hi hold argument target⟩
  | merge receiver source target =>
    cases hr
    exact ⟨_, target, hold, rfl, h.extended_merge hi hold source target⟩
  | start target => cases hr
  | prepare problems spare target => cases hr
  | expose source target => cases hr

structure Renamed (ledger next : Ledger) (target? : Option String) (source : String) : Prop where
  index? : ∀ name, next.index? name = if target? = some name then ledger.index? source else ledger.index? name
  contents? : ∀ index, next.contents? index = ledger.contents? index

theorem Sound.renamed_expose (h : Sound ledger) (name target : String) :
    Renamed ledger (ledger.perform (.expose name target)) none name := by
  rw [perform]
  split
  · exact ⟨fun _ ↦ rfl, fun _ ↦ rfl⟩
  · exact ⟨fun _ ↦ rfl, (h.unchanged_allocate [] 0).contents?⟩

/-- An action adds to the list of its receiver, starts a list, or gives a list another name. -/
theorem Sound.perform_cases (h : Sound ledger) (action : Action) :
    (∃ index old target, ledger.contents? index = some old ∧ action.target? = some target ∧
        Extended ledger (ledger.perform action) index (old ++ ledger.added action) target) ∨
      (∃ problems target, action.target? = some target ∧
        Extended ledger (ledger.perform action) ledger.lists.length problems target) ∨
      ∃ source, Renamed ledger (ledger.perform action) action.target? source := by
  cases action with
  | start target => exact .inr (.inl ⟨[], target, rfl, h.extended_new target⟩)
  | record name argument target =>
    cases hi : ledger.index? name with
    | some index => exact .inl ⟨index, h.adds rfl hi⟩
    | none => exact .inr (.inl ⟨_, target, rfl, h.extended_start hi argument target⟩)
  | merge name source target =>
    cases hi : ledger.index? name with
    | some index => exact .inl ⟨index, h.adds rfl hi⟩
    | none =>
      refine .inr (.inr ⟨source, ?_⟩)
      change Renamed ledger (ledger.merge name source target) _ source
      rw [merge_of_none hi]
      refine ⟨fun other ↦ ?_, fun _ ↦ rfl⟩
      rw [index?_assign]
      exact ite_congr (propext ⟨fun he ↦ congrArg some he.symm, fun he ↦ (Option.some.inj he).symm⟩)
        (fun _ ↦ rfl) fun _ ↦ rfl
  | prepare problems spare target =>
    exact .inr (.inr ⟨target, fun _ ↦ rfl, (h.unchanged_allocate problems spare).contents?⟩)
  | expose name target => exact .inr (.inr ⟨name, h.renamed_expose name target⟩)

theorem Sound.index?_ne_length (h : Sound ledger) (name : String) : ledger.index? name ≠ some ledger.lists.length := by
  intro hi
  obtain ⟨slice, hslice⟩ := h.names name _ hi
  rw [List.getElem?_eq_none (Nat.le_refl _)] at hslice
  cases hslice

theorem Sound.step (h : Sound ledger) (ha : action.Apart ledger) : Sound (ledger.perform action) := by
  cases action with
  | start target => exact (h.allocate [] 0).keep (holds_allocate _ _ _) h.ne_allocate target
  | record name argument target =>
    have hp := h.pass argument
    change Sound (ledger.record name argument target)
    cases hi : ledger.index? name with
    | none =>
      rw [h.record_of_none hi]
      exact hp.sound.keep hp.holds (h.ne_pass hi ha) target
    | some index =>
      obtain ⟨slice, hslice⟩ := hp.sound.names name index ((hp.unchanged.index? name).trans hi)
      rw [h.record_of_some hi]
      exact hp.sound.extend_assign hslice _ target
  | merge name source target =>
    change Sound (ledger.merge name source target)
    cases hi : ledger.index? name with
    | none =>
      rw [merge_of_none hi]
      exact h.assign target fun index hsource ↦ h.names source index hsource
    | some index =>
      obtain ⟨slice, hslice⟩ := h.names name index hi
      obtain ⟨hm, -⟩ | hm := merge_of_some hi source target
      · rw [hm]
        refine h.assign target fun i he ↦ ?_
        cases he
        exact ⟨slice, hslice⟩
      · rw [hm]
        exact h.extend_assign hslice _ target
  | prepare problems spare target => exact (h.allocate problems spare).hold (holds_allocate _ _ _) target
  | expose name target =>
    rw [perform]
    split
    · next slice hslice =>
      obtain ⟨index, -, hi⟩ := Option.bind_eq_some_iff.1 hslice
      exact h.hold (h.lists index slice hi) target
    · exact (h.allocate [] 0).hold (holds_allocate _ _ _) target

/-- At most one list that was there has changed, and this by problems that stand at its end. -/
def Grows (ledger next : Ledger) : Prop :=
  ∃ index : Nat, (∀ other, other ≠ index → next.contents? other = ledger.contents? other) ∧
    ∀ old : List Problem, ledger.contents? index = some old → ∃ added, next.contents? index = some (old ++ added)

theorem contents?_length (ledger : Ledger) : ledger.contents? ledger.lists.length = none := by
  rw [contents?, List.getElem?_eq_none (Nat.le_refl _), Option.map_none]

theorem Sound.grows (h : Sound ledger) (action : Action) : Grows ledger (ledger.perform action) := by
  obtain ⟨index, old, target, hold, -, he⟩ | ⟨problems, target, -, he⟩ | ⟨source, he⟩ := h.perform_cases action
  · refine ⟨index, he.lists, fun before hbefore ↦ ⟨ledger.added action, ?_⟩⟩
    rw [he.contents?, Option.some.inj (hold.symm.trans hbefore)]
  · -- A new list was not there before.
    refine ⟨ledger.lists.length, he.lists, fun before hbefore ↦ ?_⟩
    rw [contents?_length] at hbefore
    cases hbefore
  · exact ⟨0, fun other _ ↦ he.contents? other, fun before hbefore ↦ ⟨[], by rwa [he.contents?, List.append_nil]⟩⟩

theorem Grows.keeps (h : Grows ledger next) (hold : ledger.contents? index = some old) :
    ∃ new, next.contents? index = some new ∧ old <+: new := by
  obtain ⟨changed, hsame, hchanged⟩ := h
  by_cases he : index = changed
  · subst he
    obtain ⟨added, hnew⟩ := hchanged old hold
    exact ⟨old ++ added, hnew, List.prefix_append old added⟩
  · exact ⟨old, (hsame index he).trans hold, List.prefix_rfl⟩

end Step

section Sharing

variable {action : Action} {x y : String}

theorem Sound.index?_perform_of_ne (h : Sound ledger) (hne : action.target? ≠ some name) :
    (ledger.perform action).index? name = ledger.index? name := by
  obtain ⟨index, old, target, -, ht, he⟩ | ⟨problems, target, ht, he⟩ | ⟨source, he⟩ := h.perform_cases action
  · rw [he.names, if_neg fun hn ↦ hne (by rw [ht, hn])]
  · rw [he.names, if_neg fun hn ↦ hne (by rw [ht, hn])]
  · rw [he.index?, if_neg hne]

def Shares (ledger : Ledger) (index : Nat) (x y : String) : Prop :=
  ledger.index? x = some index ∧ ledger.index? y = some index

/-- A list keeps its names when something is added to it, whatever name is given to it besides. -/
theorem Shares.of_extended (h : Shares ledger index x y) (he : Extended ledger next index contents target) :
    Shares next index x y := by
  constructor
  · rw [he.names, h.1, ite_self]
  · rw [he.names, h.2, ite_self]

def Action.AddsThrough (action : Action) (x y : String) : Prop :=
  action.receiver? = some x ∨ action.receiver? = some y

/-- The action adds through one of the names or leaves both alone, so that neither is given to another list. -/
def Action.Respects (action : Action) (x y : String) : Prop :=
  action.AddsThrough x y ∨ action.target? ≠ some x ∧ action.target? ≠ some y

theorem Shares.adds (h : Shares ledger index x y) (hs : Sound ledger) (ha : action.AddsThrough x y) :
    ∃ old target, ledger.contents? index = some old ∧ action.target? = some target ∧
      Extended ledger (ledger.perform action) index (old ++ ledger.added action) target := by
  obtain hr | hr := ha
  · exact hs.adds hr h.1
  · exact hs.adds hr h.2

theorem Shares.step (h : Shares ledger index x y) (hs : Sound ledger) (ha : action.Respects x y) :
    Shares (ledger.perform action) index x y := by
  obtain hadds | ⟨hx, hy⟩ := ha
  · obtain ⟨old, target, -, -, he⟩ := h.adds hs hadds
    exact h.of_extended he
  · exact ⟨(hs.index?_perform_of_ne hx).trans h.1, (hs.index?_perform_of_ne hy).trans h.2⟩

def Linked (ledger : Ledger) (x y : String) : Prop :=
  ∃ old, (ledger.problems? x = some old ∧ ledger.problems? y = some old) ∧
    ∀ action : Action, action.AddsThrough x y →
      (ledger.perform action).problems? x = some (old ++ ledger.added action) ∧
        (ledger.perform action).problems? y = some (old ++ ledger.added action)

theorem Shares.linked (h : Shares ledger index x y) (hs : Sound ledger) : Linked ledger x y := by
  obtain ⟨slice, hslice⟩ := hs.names x index h.1
  have hold := contents?_eq hslice
  refine ⟨_, ⟨(problems?_eq h.1).trans hold, (problems?_eq h.2).trans hold⟩, fun action hadds ↦ ?_⟩
  obtain ⟨before, target, hbefore, -, he⟩ := h.adds hs hadds
  obtain rfl := Option.some.inj (hold.symm.trans hbefore)
  have hnext := h.of_extended he
  exact ⟨he.seen x hnext.1, he.seen y hnext.2⟩

end Sharing

section Run

variable {actions : List Action} {x y : String}

theorem Sound.run (h : Sound ledger) (ha : ledger.Apart actions) : Sound (actions.foldl perform ledger) := by
  induction actions generalizing ledger with
  | nil => exact h
  | cons action actions ih => exact ih (h.step ha.1) ha.2

theorem Shares.run (h : Shares ledger index x y) (hs : Sound ledger) (ha : ledger.Apart actions)
    (hr : ∀ action ∈ actions, action.Respects x y) : Shares (actions.foldl perform ledger) index x y := by
  induction actions generalizing ledger with
  | nil => exact h
  | cons action actions ih =>
    rw [List.forall_mem_cons] at hr
    exact ih (h.step hs hr.1) (hs.step ha.1) ha.2 hr.2

/-- No list loses anything, or changes the order of what it has, however many actions follow. -/
theorem Sound.keeps_run (h : Sound ledger) (ha : ledger.Apart actions) (hold : ledger.contents? index = some old) :
    ∃ new, (actions.foldl perform ledger).contents? index = some new ∧ old <+: new := by
  induction actions generalizing ledger old with
  | nil => exact ⟨old, hold, List.prefix_rfl⟩
  | cons action actions ih =>
    obtain ⟨middle, hmiddle, hfirst⟩ := (h.grows action).keeps hold
    obtain ⟨new, hnew, hrest⟩ := ih (h.step ha.1) ha.2 hmiddle
    exact ⟨new, hnew, hfirst.trans hrest⟩

/-- Merging into a name without a list gives the list of `source` another name. -/
theorem Sound.linked_of_merge (h : Sound ledger) (hn : ledger.index? name = none) {source : String}
    (hsource : ledger.index? source = some index) (ha : (ledger.merge name source target).Apart actions)
    (hr : ∀ action ∈ actions, action.Respects source target) :
    Linked (actions.foldl perform (ledger.merge name source target)) source target := by
  have hshares : Shares (ledger.merge name source target) index source target := by
    rw [merge_of_none hn, hsource]
    constructor
    · rw [index?_assign, hsource, ite_self]
    · rw [index?_assign, if_pos rfl]
  have hmerge : (Action.merge name source target).Apart ledger := trivial
  have hsound : Sound (ledger.merge name source target) := h.step hmerge
  exact (hshares.run hsound ha hr).linked (hsound.run ha)

end Run

/--
After any actions by which no list has been started in an array that another list has, one more adds to at most one
list. What is added through a name that has a list, be it given problems or those of another name, also of one for the
same list, comes after the old ones and is seen under all names of this list and under no other. A new list has one
name only. Merging into a name without a list lets `target` stand for what `source` stands for, and what is later
added through either of the two is seen under both. So no problem is ever lost or moved: what a list has is the
beginning of what it has at any later time.
-/
theorem problems_shared (room : Nat → Nat → Nat) (earlier : List Action) (ledger : Ledger)
    (hledger : after room earlier = ledger) (hearlier : Apart { room } earlier) :
    (∀ action, Grows ledger (ledger.perform action)) ∧
      (∀ name index, ledger.index? name = some index → ∃ old, ledger.problems? name = some old ∧
        (∀ argument target,
          Extended ledger (ledger.record name argument target) index (old ++ ledger.given argument) target) ∧
        ∀ source target, Extended ledger (ledger.merge name source target) index
          (old ++ (ledger.problems? source).getD []) target) ∧
      ((∀ name, ledger.index? name ≠ some ledger.lists.length) ∧
        (∀ target, Extended ledger (ledger.perform (.start target)) ledger.lists.length [] target) ∧
        ∀ name argument target, ledger.index? name = none →
          Extended ledger (ledger.record name argument target) ledger.lists.length (ledger.given argument) target) ∧
      (∀ name, ledger.index? name = none → ∀ source target,
        (∀ index, (ledger.merge name source target).contents? index = ledger.contents? index) ∧
          (∀ other, (ledger.merge name source target).index? other =
            if other = target then ledger.index? source else ledger.index? other) ∧
          ∀ index, ledger.index? source = some index → ∀ later : List Action,
            Apart (ledger.merge name source target) later → (∀ action ∈ later, action.Respects source target) →
            Linked (later.foldl perform (ledger.merge name source target)) source target) ∧
      ∀ later : List Action, Apart ledger later → ∀ (index : Nat) (old : List Problem),
        ledger.contents? index = some old →
        ∃ new, (after room (earlier ++ later)).contents? index = some new ∧ old <+: new := by
  subst hledger
  have hs := (sound_empty room).run hearlier
  refine ⟨hs.grows, fun name index hi ↦ ?_, ⟨hs.index?_ne_length, hs.extended_new, fun name argument target hn ↦ ?_⟩,
    fun name hn source target ↦ ⟨fun index ↦ ?_, fun other ↦ ?_, fun index hsource later hapart hlater ↦ ?_⟩,
    fun later hlater index old hold ↦ ?_⟩
  · obtain ⟨slice, hslice⟩ := hs.names name index hi
    have hold := contents?_eq hslice
    exact ⟨_, (problems?_eq hi).trans hold, hs.extended_record hi hold, hs.extended_merge hi hold⟩
  · exact hs.extended_start hn argument target
  · rw [merge_of_none hn]
    rfl
  · rw [merge_of_none hn, index?_assign]
  · exact hs.linked_of_merge hn hsource hapart hlater
  · rw [after, List.foldl_append]
    exact hs.keeps_run hlater hold

-- The names "a" and "c" share a list, which is merged into itself under the name "d"; its slice has been held with a
-- cell to spare. The name "b" has another list, "n" has none.
theorem problems_shared_self_merge :
    ∃ actions ledger, actions = ([.prepare [.emptyForm "()"] 1 "s", .record "a" (.held "s") "a", .start "b",
        .merge "n" "a" "c"] : List Action) ∧
      after (fun capacity _ ↦ capacity) actions = ledger ∧
      (∀ name ∈ ["a", "c", "d"],
        (ledger.merge "c" "a" "d").problems? name = some [.emptyForm "()", .emptyForm "()"]) ∧
      (ledger.merge "c" "a" "d").problems? "b" = some [] ∧
      Linked (([.record "e" (.listed [.unprintable "no value"]) "e"] : List Action).foldl perform
        (ledger.merge "n" "a" "e")) "a" "e" ∧
      ∃ new, (after (fun capacity _ ↦ capacity) (actions ++ [.merge "a" "a" "a"])).contents? 0 = some new ∧
        [.emptyForm "()"] <+: new := by
  refine ⟨_, _, rfl, rfl, ?_⟩
  obtain ⟨-, hadds, -, hnone, hkeeps⟩ := problems_shared (fun capacity _ ↦ capacity)
    [.prepare [.emptyForm "()"] 1 "s", .record "a" (.held "s") "a", .start "b", .merge "n" "a" "c"] _ rfl
    (by decide)
  obtain ⟨old, hold, -, hmerge⟩ := hadds "c" 0 (by decide)
  have hself := hmerge "a" "d"
  refine ⟨fun name hname ↦ ?_, hself.unseen "b" (by decide), ?_,
    hkeeps [.merge "a" "a" "a"] (by decide) 0 _ (by decide)⟩
  · obtain rfl : [.emptyForm "()"] = old := Option.some.inj hold
    refine hself.seen name ?_
    revert name
    decide
  · refine (hnone "n" (by decide) "a" "e").2.2 0 (by decide) _ (by decide) ?_
    intro action ha
    obtain rfl := List.mem_singleton.1 ha
    exact .inl (.inr rfl)

/--
Two lists are started in one array, since the same slice is passed twice: what is added to the first is written over by
what is added to the second. And where there is no list to share, merging links no names.
-/
theorem problem_overwritten_shared_array :
    (after (fun capacity _ ↦ capacity) [.prepare [.emptyForm "()"] 1 "s", .record "n" (.held "s") "a",
        .record "n" (.held "s") "b", .record "a" (.listed [.unprintable "first"]) "a"]).problems? "a" =
      some [.emptyForm "()", .unprintable "first"] ∧
    (after (fun capacity _ ↦ capacity) [.prepare [.emptyForm "()"] 1 "s", .record "n" (.held "s") "a",
        .record "n" (.held "s") "b", .record "a" (.listed [.unprintable "first"]) "a",
        .record "b" (.listed [.unprintable "second"]) "b"]).problems? "a" =
      some [.emptyForm "()", .unprintable "second"] ∧
    (after (fun capacity _ ↦ capacity) [.merge "n" "b" "b", .merge "n" "b" "a",
        .record "a" (.listed [.emptyForm "()"]) "a"]).problems? "b" = none := by
  decide

end TypeAlgebra.Ledger
