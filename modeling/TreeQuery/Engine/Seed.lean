import TreeQuery.Tree.Order
import TreeQuery.Selector.Scan

/-!
# Shortcuts by the host

A bare id, tag or class is answered by an index alone. A longer clause may start from what an index
knows about its last compound: the elements found there are the seeds, and the clause without the
token that was looked up is left to match.
-/

namespace TreeQuery

/-- What an index is asked for. -/
inductive Seed where
  | id (name : String)
  | tag (name : String)
  | className (name : String)
  deriving Repr, DecidableEq, Inhabited

namespace Seed

def isIndexed (features : Features) : Seed → Bool
  | .id _ => features.idIndex
  | .tag _ => features.tagIndex
  | .className _ => features.classIndex

/-- The elements under a context that the host finds, in document order. Lookups of ids may reach
beyond the context. -/
def fetch (seed : Seed) (h : Host) (context : NodeId) : List NodeId :=
  h.uniqueSort <|
    match seed with
    | .id name => (h.elementsById context name).filter (h.document.contains context)
    | .tag name => h.elementsByTag context name
    | .className name => h.elementsByClass context name

def ofToken (t : Token) : Option Seed :=
  match t.value with
  | .id name => some (.id name)
  | .className name => some (.className name)
  | .tag name => if name == "*" then none else some (.tag name)
  | _ => none

/-- The seed that a whole query stands for: one word, or one word after `#` or `.`. -/
def ofQuery (query : String) : Option Seed :=
  let word (text : List Char) : Option String :=
    if text.isEmpty || !text.all isWordChar then none else some (String.ofList text)
  match trimBlanks query.toList with
  | '#' :: text => (word text).map .id
  | '.' :: text => (word text).map .className
  | text => (word text).map .tag

end Seed

/-- Where to start and what is left to match. -/
structure SeedPlan where
  seed : Seed
  /-- The selector without the token that is looked up. -/
  reduced : String
  deriving Repr, DecidableEq, Inhabited

namespace SeedPlan

def isTrivial (p : SeedPlan) : Bool := p.reduced == "*"

def splitLastCompound (clause : Clause) : List Token × List Token :=
  let compound := (clause.reverse.takeWhile fun t => !t.isCombinator).reverse
  (clause.take (clause.length - compound.length), compound)

/-- Takes the last token of a compound that an index knows: the tokens before it, its seed and the
tokens after it. -/
def splitSeed (features : Features) : List Token → Option (List Token × Seed × List Token)
  | [] => none
  | t :: rest =>
    match splitSeed features rest with
    | some (before, seed, after) => some (t :: before, seed, after)
    | none => ((Seed.ofToken t).filter (·.isIndexed features)).map fun seed => ([], seed, rest)

end SeedPlan

/-- The plan for a list of one clause that does not start with a combinator. A compound of one token
leaves `*` behind. -/
def SelectorList.seedPlan (list : SelectorList) (features : Features) : Option SeedPlan :=
  match list.clauses with
  | [clause] =>
    if clause.head?.any Token.isCombinator then none
    else
      let (earlier, compound) := SeedPlan.splitLastCompound clause
      (SeedPlan.splitSeed features compound).map fun (before, seed, after) =>
        let left := if compound.length = 1 then "*" else Clause.text (before ++ after)
        ⟨seed, Clause.text earlier ++ left⟩
  | _ => none

namespace Host

/-- The answer of an index to a bare query, if the query is one and the index is there. -/
def quick (h : Host) (features : Features) (query : String) (context : NodeId) :
    Option (List NodeId) :=
  ((Seed.ofQuery query).filter (·.isIndexed features)).map fun seed => seed.fetch h context

/-- The host's own answer to a query in document order, unless it fails. -/
def native (h : Host) (query : String) (context : NodeId) : Option (List NodeId) :=
  match h.selectNative context query with
  | .ok found => some (h.uniqueSort found)
  | .error _ => none

end Host

end TreeQuery
