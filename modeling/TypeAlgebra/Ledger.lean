import TypeAlgebra.Problem

namespace TypeAlgebra

namespace Ledger

/-- The first cells of an array, and the number of cells up to which a slice may be extended in place. -/
structure Slice where
  array : Nat
  length : Nat
  capacity : Nat

end Ledger

/--
Lists of problems that are known by names. Several names may stand for the same list, and then what is recorded under
one of them is seen under all; a name may also stand for no list. Nothing keeps two lists from being slices of one
array.
-/
structure Ledger where
  /-- How many cells to spare a larger array gets, given the old capacity and the new length. -/
  room : (capacity length : Nat) → Nat := fun capacity _ ↦ capacity
  /-- Of each array, the cells that have been written. -/
  arrays : List (List Problem) := []
  lists : List Ledger.Slice := []
  /-- The names given so far, each with the index of the list it stands for. -/
  names : List (String × Option Nat) := []
  /-- The slices that are held outside of the lists. -/
  slices : List (String × Ledger.Slice) := []

namespace Ledger

def read (ledger : Ledger) (slice : Slice) : List Problem :=
  (ledger.arrays[slice.array]?.getD []).take slice.length

def allocate (ledger : Ledger) (problems : List Problem) (spare : Nat) : Slice × Ledger :=
  (⟨ledger.arrays.length, problems.length, problems.length + spare⟩,
    { ledger with arrays := ledger.arrays ++ [problems] })

def overwritten (cells : List Problem) (start : Nat) (problems : List Problem) : List Problem :=
  cells.take start ++ problems ++ cells.drop (start + problems.length)

/-- Writes behind a slice, over whatever is there, if its array has room for all of it, and otherwise to a new array. -/
def append (ledger : Ledger) (slice : Slice) (problems : List Problem) : Slice × Ledger :=
  let length := slice.length + problems.length
  if length ≤ slice.capacity then
    ({ slice with length },
      { ledger with arrays := ledger.arrays.modify slice.array (overwritten · slice.length problems) })
  else ledger.allocate (ledger.read slice ++ problems) (ledger.room slice.capacity length)

def index? (ledger : Ledger) (name : String) : Option Nat :=
  (ledger.names.lookup name).join

def contents? (ledger : Ledger) (index : Nat) : Option (List Problem) :=
  ledger.lists[index]?.map ledger.read

def problems? (ledger : Ledger) (name : String) : Option (List Problem) :=
  (ledger.index? name).bind ledger.contents?

def assign (ledger : Ledger) (name : String) (index : Option Nat) : Ledger :=
  { ledger with names := (name, index) :: ledger.names.filter (·.1 ≠ name) }

/-- Lets `name` stand for a new list, which is the given slice and no copy of it. -/
def keep (ledger : Ledger) (slice : Slice) (name : String) : Ledger :=
  { ledger with lists := ledger.lists ++ [slice] }.assign name (some ledger.lists.length)

def extend (ledger : Ledger) (index : Nat) (problems : List Problem) : Ledger :=
  match ledger.lists[index]? with
  | some slice =>
    let (slice, ledger) := ledger.append slice problems
    { ledger with lists := ledger.lists.set index slice }
  | none => ledger

/-- Problems to record: each given by itself, so that they come in an array of their own, or a slice that is held. -/
inductive Argument where
  | listed (problems : List Problem)
  | held (name : String)

def pass (ledger : Ledger) : Argument → Slice × Ledger
  | .listed problems => ledger.allocate problems 0
  | .held name =>
    match ledger.slices.lookup name with
    | some slice => (slice, ledger)
    | none => ledger.allocate [] 0

/--
Adds problems to the list of `name` and lets `target` stand for it too. If `name` has no list, the slice that the
problems come in is one.
-/
def record (ledger : Ledger) (name : String) (argument : Argument) (target : String) : Ledger :=
  let (slice, ledger) := ledger.pass argument
  match ledger.index? name with
  | some index => (ledger.extend index (ledger.read slice)).assign target (some index)
  | none => ledger.keep slice target

/--
Adds the problems of `source` to the list of `name` and lets `target` stand for it too. If `name` has
no list, `target` stands for what `source` stands for.
-/
def merge (ledger : Ledger) (name source target : String) : Ledger :=
  match ledger.index? name with
  | some index =>
    match ledger.problems? source with
    | none | some [] => ledger.assign target (some index)
    | some problems => (ledger.extend index problems).assign target (some index)
  | none => ledger.assign target (ledger.index? source)

def hold (ledger : Ledger) (name : String) (slice : Slice) : Ledger :=
  { ledger with slices := (name, slice) :: ledger.slices }

inductive Action where
  /-- An empty list is started. -/
  | start (target : String)
  | record (name : String) (argument : Argument) (target : String)
  | merge (name source target : String)
  /-- A slice with cells to spare is made, to be held. -/
  | prepare (problems : List Problem) (spare : Nat) (target : String)
  /-- The slice that a list is, is held. -/
  | expose (name target : String)

def perform (ledger : Ledger) : Action → Ledger
  | .start target =>
    let (slice, ledger) := ledger.allocate [] 0
    ledger.keep slice target
  | .record name argument target => ledger.record name argument target
  | .merge name source target => ledger.merge name source target
  | .prepare problems spare target =>
    let (slice, ledger) := ledger.allocate problems spare
    ledger.hold target slice
  | .expose name target =>
    match (ledger.index? name).bind (ledger.lists[·]?) with
    | some slice => ledger.hold target slice
    | none =>
      let (slice, ledger) := ledger.allocate [] 0
      ledger.hold target slice

def logEntries (problems : List Problem) : List String :=
  problems.zipIdx.map fun (problem, i) ↦
    "e" ++ toString i ++ "=[msg=" ++ problem.formatted ++ "]"

end Ledger

end TypeAlgebra
