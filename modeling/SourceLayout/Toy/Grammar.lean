import SourceLayout.Grammar
import SourceLayout.Toy.Parser

/-! # Rules of the toy language

A program has one item a line, and a list breaks as a whole. A node behind a comment with the
marker stays as written, and an embedded block is formatted by the language it names.
-/

namespace SourceLayout.Toy

def programRule (skipDangling : Bool) (scene : Scene) (place : Cursor) : Rule Doc := do
  let body ← Rule.printList place "body"
  let dangling ←
    if skipDangling then Rule.nothing
    else Rule.danglingComments scene place true fun _ => true
  let joined ← Rule.build (.intersperse body (← Rule.line .hard))
  Rule.build (.append joined dangling)

def listRule (scene : Scene) (place : Cursor) : Rule Doc := do
  let items ← Rule.printList place "items"
  if items.isEmpty then
    let dangling ← Rule.danglingComments scene place true fun _ => true
    Rule.concat [← Rule.fixed ['('], dangling, ← Rule.fixed [')']]
  else
    let joined ← Rule.build (.intersperse items (← Rule.line .normal))
    let inner ← Rule.build (.indent (← Rule.concat [← Rule.line .soft, joined]))
    Rule.build (.group (← Rule.concat
      [← Rule.fixed ['('], inner, ← Rule.line .soft, ← Rule.fixed [')']]))

/-- Appends each literal part and the expression behind it, as long as there is one. -/
def weave (doc : Doc) : List Doc → List Doc → Rule Doc
  | [], _ => return doc
  | quasi :: quasis, [] => do weave (← Rule.build (.append doc quasi)) quasis []
  | quasi :: quasis, expression :: expressions => do
    let doc ← Rule.build (.append doc quasi)
    let hole ← Rule.concat [← Rule.fixed ['$', '\x7b'], expression, ← Rule.fixed ['\x7d']]
    weave (← Rule.build (.append doc hole)) quasis expressions

def templateRule (place : Cursor) : Rule Doc := do
  let quasis ← Rule.printList place "quasis"
  let expressions ← Rule.printList place "expressions"
  let doc ← weave (← Rule.fixed ['"']) quasis expressions
  Rule.build (.append doc (← Rule.fixed ['"']))

def rule (skipDangling : Bool) (scene : Scene) (place : Cursor) (_flags : Option Flags) :
    Rule Doc :=
  let node := place.nodeHere
  match node.kind with
  | "Program" => programRule skipDangling scene place
  | "Ident" => Rule.printField place "name"
  | "List" => listRule scene place
  | "Template" => templateRule place
  | "Quasi" => Rule.printField place "raw"
  | "Embed" => Rule.build (.verbatim (scene.tree.slice node.span))
  | kind => Rule.refuse ("unknown node kind ".toList ++ kind.toList)

def embed (scene : Scene) (place : Cursor) : Rule (Option Doc) := do
  let node := place.nodeHere
  if node.kind != "Embed" then return none
  let language := (node.text? "lang").getD []
  let code ← Rule.embedded scene language ((node.text? "code").getD [])
  let opening ← Rule.owned ('%' :: language ++ ['\x7b'])
  return some (← Rule.concat [opening, code, ← Rule.fixed ['\x7d']])

def quasis (node : Node) : Option (List NodeId) :=
  if node.kind != "Template" then none
  else
    match node.field? "quasis" with
    | some (.list items) => some (items.filterMap Value.node?)
    | _ => none

def ignoreMarker : Text := "toy-ignore".toList

def isIgnored (attachments : Attachments) (place : Cursor) : Bool :=
  match place.value with
  | .node n => (attachments.placed n .leading).any fun c =>
    ignoreMarker.occursIn (place.tree.comment c).text
  | _ => false

/-- The toy grammar; it may leave out the dangling comments of the program. -/
def grammar (skipDangling : Bool) : Grammar where
  rule := rule skipDangling
  embed := embed
  canHold node := node.kind != "Quasi"
  quasis := quasis
  isIgnored := isIgnored

def language : Language where
  name := "toy".toList
  parser source := (parse source).mapError SyntaxError.message
  grammar := grammar false

def brokenLanguage : Language where
  name := "broken".toList
  parser _ := .error "nothing parses here".toList
  grammar := grammar false

def languages : Languages := Languages.register (Languages.register [] language) brokenLanguage

end SourceLayout.Toy
