import TypedPipeline.Schema.Subsumption

/-!
# Schema.Union: one schema for what any of several accept

The union of a list of schemas keeps no member that another one covers. This file fixes:

* the flattening of unions in the list (`flattenUnions`), one level deep;
* the insertion of one more member (`keep`): nothing changes if a kept member covers it; otherwise it
  stands where the first member that it covers stood, or at the end, and those it covers go;
* the union itself (`unionOf`), which is the member if only one is left.
-/

namespace TypedPipeline

namespace Schema

/-- The list with the branches of each union in its place. -/
def flattenUnions : List Schema → List Schema
  | [] => []
  | .anyOf branches :: rest => branches ++ flattenUnions rest
  | schema :: rest => schema :: flattenUnions rest

/-- Put `schema` where the first member that it covers stands, or at the end, and drop the members
    that it covers. -/
def replaceCovered (schema : Schema) : List Schema → List Schema
  | [] => [schema]
  | member :: rest =>
    if member.isSubsumedBy schema then
      schema :: rest.filter fun m => !m.isSubsumedBy schema
    else member :: replaceCovered schema rest

/-- One more member. -/
def keep (kept : List Schema) (schema : Schema) : List Schema :=
  if kept.any fun k => schema.isSubsumedBy k then kept else replaceCovered schema kept

/-- The union of the schemas, without members that another member covers. -/
def unionOf (schemas : List Schema) : Schema :=
  match (flattenUnions schemas).foldl keep [] with
  | [only] => only
  | kept => .anyOf kept

end Schema

end TypedPipeline
