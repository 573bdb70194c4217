import ConnectorQuery.Failure
import ConnectorQuery.Query.Builder
import ConnectorQuery.Statement.Progress

/-!
# From text to query

The whole way of one statement: its text is cut into tokens, the tokens are read
as a statement (`Statement.parse`), and the statement is resolved into the query
that the text means (`Query.parse`).
-/

namespace ConnectorQuery

/-- The statement that a text spells, valid or not. -/
def Statement.parse (text : String) : Except Failure Statement :=
  let width := Text.width text.toList
  ((ofTokens? width (Token.tokenize text)).get (ofTokens?_tokenize_isSome text)).mapError
    (Failure.ofGrammar text)

/-- The query that a text means. -/
def Query.parse (text : String) : Except Failure Query := do
  let statement ← Statement.parse text
  (Query.ofStatement text statement).mapError .rule

end ConnectorQuery
