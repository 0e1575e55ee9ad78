import ScssExtend.Selector.List
import ScssExtend.Warning

/-!
# The table of extensions

An `Extension` says that what matches its extender also counts as matching its target. A `Table` keeps the
extensions in the order of their registration, each one once, together with an `Index` of them by the
components of their targets. `lookupSubset` answers from the index which targets a compound contains.
-/

namespace ScssExtend

/-- Wherever `target` matches, `extender` is to match as well; `position` is that of the `@extend`. -/
structure Extension where
  extender : Complex
  target : Compound
  position : Position
  deriving DecidableEq

namespace Extension

/-- An extension that says something: neither side is empty. -/
def IsProper (e : Extension) : Prop :=
  e.target.components ≠ [] ∧ e.extender.links ≠ []

instance (e : Extension) : Decidable e.IsProper :=
  inferInstanceAs (Decidable (e.target.components ≠ [] ∧ e.extender.links ≠ []))

/-- True of two extensions with equivalent extenders and equivalent targets, wherever they were written. -/
def eqv (e f : Extension) : Bool :=
  e.target.eqv f.target && e.extender.eqv f.extender

/-- The warning about an extension that is not proper. -/
def emptyWarning (e : Extension) : Warning :=
  ⟨"extend", e.position.text ++ ": ignoring @extend with an empty selector"⟩

end Extension

/-- For each component of a target, the places in the table of the extensions with such a target. -/
structure Index where
  rows : List (Simple × List Nat)

namespace Index

/-- Nothing is listed. -/
def empty : Index := ⟨[]⟩

/-- The places listed for a component. -/
def slots (index : Index) (s : Simple) : List Nat :=
  (index.rows.lookup s).getD []

/-- Lists a place at the end of a component's row, unless it stands there already. -/
def addToRow (slot : Nat) (s : Simple) : List (Simple × List Nat) → List (Simple × List Nat)
  | [] => [(s, [slot])]
  | (t, slots) :: rows =>
    if s = t then (t, if slots.getLast? = some slot then slots else slots ++ [slot]) :: rows
    else (t, slots) :: addToRow slot s rows

/-- Lists a place under every component of a target. -/
def add (index : Index) (slot : Nat) (target : Compound) : Index :=
  ⟨target.components.foldl (fun rows s => addToRow slot s rows) index.rows⟩

/-- The index of a list of extensions, each under its place in the list. -/
def ofList (entries : List Extension) : Index :=
  entries.zipIdx.foldl (fun index (e, slot) => index.add slot e.target) empty

/-- One more extension is listed under the next place. -/
theorem ofList_concat (entries : List Extension) (e : Extension) :
    ofList (entries ++ [e]) = (ofList entries).add entries.length e.target := by
  simp [ofList, List.zipIdx_append, List.foldl_append]

end Index

/-- Proper extensions in the order of their registration, with their index. -/
structure Table where
  entries : List Extension
  index : Index
  index_eq : index = Index.ofList entries
  proper : ∀ e ∈ entries, e.IsProper

namespace Table

/-- Nothing is registered. -/
def empty : Table :=
  ⟨[], .empty, rfl, by simp⟩

/-- True when an extension with the same extender and target is registered. -/
def knows (t : Table) (e : Extension) : Bool :=
  t.entries.any e.eqv

/-- Registers a proper extension behind the others. -/
def push (t : Table) (e : Extension) (h : e.IsProper) : Table where
  entries := t.entries ++ [e]
  index := t.index.add t.entries.length e.target
  index_eq := by rw [Index.ofList_concat, t.index_eq]
  proper := by
    intro f hf
    rcases List.mem_append.1 hf with hf | hf
    · exact t.proper f hf
    · rwa [List.mem_singleton.1 hf]

/-- Registers an extension that is proper and not known yet; any other one leaves the table as it is. -/
def insert (t : Table) (e : Extension) : Table :=
  if h : e.IsProper then
    if t.knows e then t else t.push e h
  else t

/-- The extensions whose whole target is contained in `query`, in the order of their registration. -/
def lookupSubset (t : Table) (query : Compound) : List Extension :=
  let slots := (query.components.flatMap t.index.slots).filter fun slot =>
    t.entries[slot]?.any fun e => e.target.isSubsetOf query
  (OrderedSet.ofList slots).toList.filterMap fun slot => t.entries[slot]?

/-- The extensions whose target is equivalent to `query`, in the order of their registration. -/
def lookupExact (t : Table) (query : Compound) : List Extension :=
  t.entries.filter fun e => e.target.eqv query

/-- A looked up extension is registered. -/
theorem mem_entries_of_mem_lookupSubset {t : Table} {query : Compound} {e : Extension}
    (h : e ∈ t.lookupSubset query) : e ∈ t.entries := by
  obtain ⟨slot, -, h⟩ := List.mem_filterMap.1 h
  exact List.mem_of_getElem? h

end Table

end ScssExtend
