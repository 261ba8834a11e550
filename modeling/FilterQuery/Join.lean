import FilterQuery.Text.Whitespace

/-!
Joining filters. Every filter goes into parentheses of its own and `and` stands between them;
blank filters are left out. A filter that comes alone is not touched.
-/
namespace FilterQuery

open Text

def wrap (query : String) : List Char := '(' :: query.toList ++ [')']

def join : List String → String
  | [] => ""
  | [only] => only
  | queries =>
    let filters := queries.filter fun q => !isBlank q
    String.ofList (" and ".toList.intercalate (filters.map wrap))

end FilterQuery
