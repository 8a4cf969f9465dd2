import EventChart.Match.Glob
/-!
# Filter expressions

A filter expression combines glob patterns with `AND`, `OR` and `NOT`.  A
pattern either tests the subject's default attribute or, given a field name,
the attribute of that name; a subject without that attribute never matches
it.

`Subject` is anything an expression can test: a default attribute and a
partial map of named attributes.  `Expr.eval` gives the meaning of an
expression, compositionally.
-/

namespace EventChart.Match

/-- Something a filter expression can be evaluated against. -/
structure Subject where
  /-- The attribute that a bare pattern tests. -/
  default : String
  /-- The named attributes; `none` for an attribute the subject lacks. -/
  lookup : String → Option String

/-- A compiled filter expression. -/
inductive Expr where
  /-- A pattern on the default attribute (`none`) or on a named field. -/
  | pattern (field : Option String) (glob : Glob)
  | not (e : Expr)
  | and (a b : Expr)
  | or (a b : Expr)

namespace Expr

/-- Whether the subject satisfies the expression. -/
def eval (s : Subject) : Expr → Bool
  | .pattern none g => g.accepts s.default
  | .pattern (some f) g =>
    match s.lookup f with
    | some v => g.accepts v
    | none => false
  | .not e => !e.eval s
  | .and a b => a.eval s && b.eval s
  | .or a b => a.eval s || b.eval s

end Expr

/-- A filter expression together with its source text. -/
structure Filter where
  source : String
  root : Expr

/-- Whether the subject satisfies the filter. -/
def Filter.accepts (f : Filter) (s : Subject) : Bool := f.root.eval s

end EventChart.Match
