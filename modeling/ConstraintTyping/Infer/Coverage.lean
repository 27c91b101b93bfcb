import ConstraintTyping.Tree.Expr
import ConstraintTyping.Types.Declare

/-!
# Coverage of a match

Whether a match covers every case is decided from the patterns alone, so that a match is judged even
while the type of the matched value is unknown.  A tag is covered by an arm all of whose
sub-patterns match everything; a nested tag never does.
-/

namespace ConstraintTyping

mutual

/-- Whether a pattern below the top matches every value. -/
def Pattern.isOpen : Pattern → Bool
  | .wildcard _ | .binding _ _ => true
  | .literal _ _ | .tag _ _ _ => false
  | .tuple _ items => allOpen items

/-- Whether all patterns of a list match every value. -/
def allOpen : List Pattern → Bool
  | [] => true
  | p :: rest => p.isOpen && allOpen rest

end

/-- The tag that an arm covers. -/
def Pattern.coveredTag? : Pattern → Option Name
  | .tag _ name items => if allOpen items then some name else none
  | _ => none

/-- The tag that a pattern asks for. -/
def Pattern.tagName? : Pattern → Option Name
  | .tag _ name _ => some name
  | _ => none

/-- The truth value that a pattern asks for. -/
def Pattern.bool? : Pattern → Option Bool
  | .literal _ (.mk _ _ (.bool value)) => some value
  | _ => none

/-- Whether a pattern matches every value of a type that has but one form: the unit literal, or a
tuple of patterns that match everything. -/
def Pattern.coversSingleForm : Pattern → Bool
  | .literal _ (.mk _ _ .unit) => true
  | .tuple _ items => allOpen items
  | _ => false

namespace Store

/-- The tags among which a tag is one: those of its sum, or only itself. -/
def siblingTags (st : Store) (tag : TypeId) : List TypeId :=
  match (st.productBody? tag).bind (·.parent) with
  | some sum => (st.sumTags? sum).getD []
  | none => [tag]

/-- A tag as a pattern with a wildcard for each field. -/
def tagPatternText (st : Store) (tag : TypeId) (name : Name) : String :=
  match ((st.productBody? tag).map (·.fields.length)).getD 0 with
  | 0 => name
  | arity => s!"{name}(" ++ ", ".intercalate (List.replicate arity "_") ++ ")"

/-- Tags that no pattern covers, in declaration order.  An undeclared tag leaves nothing open, since
it is a fault of its own. -/
def missingTags (st : Store) (first : Name) (patterns : List Pattern) : List String :=
  let covered := patterns.filterMap Pattern.coveredTag?
  match st.declared? first with
  | none => []
  | some decl =>
    (st.siblingTags decl).filterMap fun tag => do
      let name ← st.nominalName? tag
      if covered.contains name then none else some (st.tagPatternText tag name)

/-- The cases that a list of patterns leaves open, as patterns; none when the match is complete. -/
def missingPatterns (st : Store) (patterns : List Pattern) : List String :=
  if patterns.any Pattern.isCatchAll then []
  else match patterns.findSome? Pattern.tagName? with
    | some first => st.missingTags first patterns
    | none =>
      let bools := patterns.filterMap Pattern.bool?
      if !bools.isEmpty then
        ([true, false].filter fun value => !bools.contains value).map toString
      else if patterns.any Pattern.coversSingleForm then []
      else ["_"]

end Store

end ConstraintTyping
