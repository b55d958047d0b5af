import TreeQuery.Tree.Host
import TreeQuery.Selector.Token

/-!
# Simple tests

The tests of one element that need no memory: tag, id, class and attribute tests, the positions that
do not count, and the relation of a leading combinator to the query context.
-/

namespace TreeQuery

/-- What a test looks at besides the element: the host, the context of the query, and whether tags
are compared letter by letter. -/
structure Scope where
  host : Host
  context : Option NodeId
  xml : Bool

namespace Scope

def document (s : Scope) : Document := s.host.document

def withContext (s : Scope) (context : NodeId) : Scope := { s with context := some context }

end Scope

/-- Whether a word stands at the start of a text and ends at a blank or with the text. -/
def startsWithWord : List Char → List Char → Bool
  | [], [] => true
  | [], c :: _ => isBlank c
  | _ :: _, [] => false
  | w :: word, c :: text => w == c && startsWithWord word text

/-- Whether a word stands somewhere in a text, between blanks or the ends of the text. The flag says
that a word may start here. -/
def hasWord (word : List Char) : Bool → List Char → Bool
  | atStart, [] => atStart && startsWithWord word []
  | atStart, c :: text =>
    (atStart && startsWithWord word (c :: text)) || hasWord word (isBlank c) text

/-- The test for one word of a class attribute. -/
structure ClassPattern where
  word : String
  deriving Repr, DecidableEq, Inhabited

def ClassPattern.accepts (p : ClassPattern) (value : String) : Bool :=
  hasWord p.word.toList true value.toList

def occursIn (part : List Char) : List Char → Bool
  | [] => part.isEmpty
  | c :: text => part.isPrefixOf (c :: text) || occursIn part text

namespace AttributeTest

/-- Whether a value that is present passes. An empty check value is nowhere at the start, at the end
or within. -/
def acceptsValue (t : AttributeTest) (value : String) : Bool :=
  match t.operator with
  | none => true
  | some .equals => value == t.value
  | some .differs => value != t.value
  | some .startsWith => !t.value.isEmpty && t.value.toList.isPrefixOf value.toList
  | some .endsWith => !t.value.isEmpty && t.value.toList.isSuffixOf value.toList
  | some .contains => !t.value.isEmpty && occursIn t.value.toList value.toList
  | some .includes =>
    let spaced := value.toList.map fun c => if isBlank c then ' ' else c
    occursIn t.value.toList (' ' :: spaced ++ [' '])
  | some .dashMatch => value == t.value || (t.value ++ "-").toList.isPrefixOf value.toList

/-- Whether an attribute passes that may be absent. -/
def accepts (t : AttributeTest) : Option String → Bool
  | some value => t.acceptsValue value
  | none => t.operator == some .differs

end AttributeTest

namespace Scope

def hasTag (s : Scope) (name : String) (n : NodeId) : Bool :=
  name == "*" || s.document.hasTag s.xml n name

def hasId (s : Scope) (id : String) (n : NodeId) : Bool :=
  s.document.attribute? n "id" == some id

def hasClass (s : Scope) (pattern : ClassPattern) (n : NodeId) : Bool :=
  (s.document.attribute? n "class").any pattern.accepts

def passes (s : Scope) (test : AttributeTest) (n : NodeId) : Bool :=
  test.accepts (s.document.attribute? n test.name)

/-- Whether two elements are siblings of the kind that a position counts. -/
def sameKind (s : Scope) (ofType : Bool) (n other : NodeId) : Bool :=
  !ofType || (s.document.localName n).any fun name => s.document.hasTag s.xml other name

/-- Whether no element before `n` among its siblings is of its kind. -/
def isFirst (s : Scope) (ofType : Bool) (n : NodeId) : Bool :=
  let d := s.document
  (seek d.previousElement (s.sameKind ofType n) d.size (d.previousElement n)).isNone

/-- Whether no element after `n` among its siblings is of its kind. -/
def isLast (s : Scope) (ofType : Bool) (n : NodeId) : Bool :=
  let d := s.document
  (seek d.nextElement (s.sameKind ofType n) d.size (d.nextElement n)).isNone

/-- Whether a leading combinator relates an element to the context. -/
def leads (s : Scope) (c : Combinator) (n : NodeId) : Bool :=
  let d := s.document
  match s.context with
  | none => false
  | some context =>
    match c with
    | .child => d.parent n == some context
    | .descendant => d.contains context n
    | .adjacent => d.previousElement n == some context
    | .sibling => (seek d.previousElement (· == context) d.size (d.previousElement n)).isSome

end Scope

end TreeQuery
