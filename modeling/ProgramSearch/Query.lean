import ProgramSearch.Grammar.Basic

namespace ProgramSearch
namespace Query

/-!
# Relational query pipelines

A query selects columns of a sorted or filtered table.  A sort orders a filter, a
filter works on a grouping, and a grouping on a join of tables.  There is only a
grammar; nothing evaluates its programs.
-/

/-- The parts of a pipeline, the start symbol first, in minting order. -/
inductive Part where
  | start
  | select
  | sort
  | filter
  | groupBy
  | join
  | tables
  | columns
  | order
  | predicate
  | groupKey
  | keyPairs
deriving DecidableEq

namespace Part

def name : Part → String
  | start => "S"
  | select => "select"
  | sort => "sort"
  | filter => "filter"
  | groupBy => "groupby"
  | join => "join"
  | tables => "tbls"
  | columns => "cols"
  | order => "desc"
  | predicate => "pred"
  | groupKey => "grpkey"
  | keyPairs => "keyPairs"

/-- Every part but the first, in minting order. -/
def others : List Part :=
  [select, sort, filter, groupBy, join, tables, columns, order, predicate, groupKey, keyPairs]

def position (part : Part) : Nat :=
  (start :: others).idxOf part

end Part

/-- The rules in order. -/
def rules : List (Part × List Part) :=
  [(.start, [.select]),
    (.select, [.sort, .columns]),
    (.select, [.filter, .columns]),
    (.sort, [.filter, .order]),
    (.filter, [.groupBy, .predicate]),
    (.groupBy, [.join, .groupKey]),
    (.join, [.tables, .keyPairs])]

/-- The grammar of query pipelines over a given identity. -/
def grammar (identity : Nat) : Grammar :=
  let symbol (part : Part) : Symbol := ⟨identity, part.position⟩
  let vocabulary :=
    Part.others.foldl (fun grammar part => (grammar.mint part.name).2)
      (Grammar.create identity Part.start.name)
  rules.foldl (fun grammar rule => grammar.addRule (symbol rule.1) (rule.2.map symbol))
    vocabulary

end Query
end ProgramSearch
