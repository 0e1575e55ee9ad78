import ScssExtend.Text.Identifier

/-!
# Simple selectors

A simple selector is one condition on an element: a type, an id, a class, an attribute, a pseudo-class, and
so on, with the parent reference `&` and placeholders `%name` beside them. `text` writes it canonically.
Simple selectors are ordered by kind, then by name, then by what qualifies the name.
-/

namespace ScssExtend

/-- How an attribute's value is compared with the written one. -/
inductive AttributeOperator where
  | equals
  | includes
  | dashMatch
  | prefixMatch
  | suffixMatch
  | substringMatch
  deriving DecidableEq, Hashable

namespace AttributeOperator

/-- The sign of an operator. -/
def text : AttributeOperator → String
  | equals => "="
  | includes => "~="
  | dashMatch => "|="
  | prefixMatch => "^="
  | suffixMatch => "$="
  | substringMatch => "*="

/-- The place of an operator in the order of the components. -/
def rank : AttributeOperator → Nat
  | equals => 0
  | includes => 1
  | dashMatch => 2
  | prefixMatch => 3
  | suffixMatch => 4
  | substringMatch => 5

end AttributeOperator

/-- A condition on an attribute's value: the value that it is compared with, and how. -/
structure AttributeMatch where
  operator : AttributeOperator
  value : String
  deriving DecidableEq, Hashable

/-- A condition on a single element. -/
inductive Simple where
  /-- The reference `&` to the selector of the enclosing rule. -/
  | parent
  | universal
  | type (name : String)
  | id (name : String)
  | className (name : String)
  | placeholder (name : String)
  | attr (name : String) (matcher : Option AttributeMatch)
  /-- `:name`, with the raw text of its argument if it has one. -/
  | pseudoClass (name : String) (argument : Option String)
  /-- `::name`, with the raw text of its argument if it has one. -/
  | pseudoElement (name : String) (argument : Option String)
  deriving DecidableEq, Hashable

namespace Simple

/-- The conditions that can only stand at the beginning of a compound: `&`, `*` and types. -/
def isTypeLike : Simple → Bool
  | parent | universal | type _ => true
  | _ => false

/-- True of a placeholder. -/
def isPlaceholder : Simple → Bool
  | placeholder _ => true
  | _ => false

/-! ## Text -/

/-- A value between double quotes, whose escapes are kept as they are and whose bare quotes are escaped. -/
def quoteBody : List Char → List Char
  | [] => []
  | c :: cs =>
    if c = '\\' then
      match cs with
      | [] => [c]
      | d :: ds => c :: d :: quoteBody ds
    else if c = '"' then '\\' :: c :: quoteBody cs
    else c :: quoteBody cs

/-- An attribute's value: bare when it is an identifier, otherwise between double quotes. -/
def valueText (value : String) : String :=
  if Text.isIdentifier value.toList then value
  else String.ofList ('"' :: (quoteBody value.toList ++ ['"']))

/-- The operator and value of an attribute selector, if it has them. -/
def matcherText : Option AttributeMatch → String
  | none => ""
  | some m => m.operator.text ++ valueText m.value

/-- The parenthesised argument of a pseudo-class or pseudo-element, if it has one. -/
def argumentText : Option String → String
  | none => ""
  | some argument => "(" ++ argument ++ ")"

/-- A component as it is written. -/
def text : Simple → String
  | parent => "&"
  | universal => "*"
  | type name => name
  | id name => "#" ++ name
  | className name => "." ++ name
  | placeholder name => "%" ++ name
  | attr name matcher => "[" ++ name ++ matcherText matcher ++ "]"
  | pseudoClass name argument => ":" ++ name ++ argumentText argument
  | pseudoElement name argument => "::" ++ name ++ argumentText argument

/-! ## Order -/

/-- The place of a component's kind in the order of the components. -/
def rank : Simple → Nat
  | parent => 0
  | universal => 1
  | type _ => 2
  | id _ => 3
  | className _ => 4
  | placeholder _ => 5
  | attr .. => 6
  | pseudoClass .. => 7
  | pseudoElement .. => 8

/-- The name of a component, empty where it has none. -/
def name : Simple → String
  | parent | universal => ""
  | type name | id name | className name | placeholder name => name
  | attr name _ | pseudoClass name _ | pseudoElement name _ => name

/-- The place of an attribute selector's operator, if it has one. -/
def operatorRank : Simple → Option Nat
  | attr _ (some m) => some m.operator.rank
  | _ => none

/-- The value of an attribute selector, or the argument of a pseudo-class or pseudo-element. -/
def value : Simple → Option String
  | attr _ (some m) => some m.value
  | pseudoClass _ argument | pseudoElement _ argument => argument
  | _ => none

/-- By kind, then name, then operator, then value; a missing part comes before any other. -/
instance : Ord Simple where
  compare := compareLex (compareOn rank) (compareLex (compareOn name)
    (compareLex (compareOn operatorRank) (compareOn value)))

instance : Std.TransOrd Simple :=
  inferInstanceAs (Std.TransCmp (compareLex (compareOn rank) (compareLex (compareOn name)
    (compareLex (compareOn operatorRank) (compareOn value)))))

/-- Operators of the same place are equal. -/
theorem AttributeOperator.rank_injective {a b : AttributeOperator} (h : a.rank = b.rank) : a = b := by
  cases a <;> cases b <;> first | rfl | cases h

/-- A simple selector is determined by the four things it is ordered by. -/
theorem eq_of_parts {s t : Simple} (hr : s.rank = t.rank) (hn : s.name = t.name)
    (ho : s.operatorRank = t.operatorRank) (hv : s.value = t.value) : s = t := by
  cases s <;> cases t <;> simp only [rank, name, value] at hr hn hv <;> first | omega | skip
  case attr.attr =>
    next m _ m' =>
    subst hn
    cases m with
    | none => cases m' with
      | none => rfl
      | some m' => simp [operatorRank] at ho
    | some m => cases m' with
      | none => simp [operatorRank] at ho
      | some m' =>
        obtain ⟨op, v⟩ := m
        obtain ⟨op', v'⟩ := m'
        simp only [operatorRank, Option.some.injEq] at ho hv
        rw [AttributeOperator.rank_injective ho, hv]
  all_goals simp_all

/-- Simple selectors that compare as equal are equal. -/
instance : Std.LawfulEqOrd Simple where
  eq_of_compare {s t} h := by
    change compareLex (compareOn rank) (compareLex (compareOn name)
      (compareLex (compareOn operatorRank) (compareOn value))) s t = .eq at h
    simp only [compareLex, Ordering.then_eq_eq] at h
    obtain ⟨hr, hn, ho, hv⟩ := h
    exact eq_of_parts (Std.LawfulEqOrd.eq_of_compare hr) (Std.LawfulEqOrd.eq_of_compare hn)
      (Std.LawfulEqOrd.eq_of_compare ho) (Std.LawfulEqOrd.eq_of_compare hv)

end Simple

end ScssExtend
