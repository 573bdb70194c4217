import ConnectorQuery.Query.Error

/-!
# Name policies

A *policy* looks at each source and each target of a batch and may reject the
name, with a reason.

One way to give a policy is a regular expression that the names must match. What
the expressions mean is left to an *engine*.
-/

namespace ConnectorQuery

/-! ## Patterns for names -/

/-- A regular expression with its text. -/
structure NamePattern where
  text : String
  /-- Whether the expression occurs somewhere in a name. -/
  isMatch : String → Bool

/-- The expression for names of topics: a word character, then word characters,
    hyphens, low lines and dots. -/
def NamePattern.topicNamesText : String :=
  "^[\\w][\\w\\-\\_\\.]*$"

/-- An engine for regular expressions. The one for names of topics, which the program
    relies on, is an expression to every engine. -/
structure PatternEngine where
  /-- The test that a text stands for, or why it is no expression. -/
  compile : String → Except String (String → Bool)
  topicNames : String → Bool
  compile_topicNames : compile NamePattern.topicNamesText = .ok topicNames

namespace NamePattern

/-- The pattern with the given text. -/
def ofText (engine : PatternEngine) (text : String) : Except String NamePattern :=
  (engine.compile text).map fun test => ⟨text, test⟩

section OfText

variable {engine : PatternEngine} {text : String}

theorem ofText_eq_ok {test : String → Bool} (compiled : engine.compile text = .ok test) :
    ofText engine text = .ok ⟨text, test⟩ := by
  rw [ofText, compiled]
  rfl

theorem ofText_eq_error {message : String} (compiled : engine.compile text = .error message) :
    ofText engine text = .error message := by
  rw [ofText, compiled]
  rfl

end OfText

/-- The pattern for names of topics. -/
def topicNames (engine : PatternEngine) : NamePattern :=
  ⟨topicNamesText, engine.topicNames⟩

end NamePattern

/-! ## Policies -/

/-- The reason for which a name is rejected, where it is. -/
structure NamePolicy where
  rejection? : Role → String → Option String

namespace NamePolicy

/-- Every name is accepted. -/
def any : NamePolicy :=
  ⟨fun _ _ => none⟩

/-- Names that match the pattern are accepted. -/
def matching (p : NamePattern) : NamePolicy :=
  ⟨fun _ name => if p.isMatch name then none else some ("does not match " ++ p.text)⟩

/-- Names that the test lets pass are accepted. -/
def test (accepts : Role → String → Bool) : NamePolicy :=
  ⟨fun role name => if accepts role name then none else some "rejected by name policy"⟩

end NamePolicy

end ConnectorQuery
