import SourceLayout.Doc.Basic
import SourceLayout.Text.Quoted

/-! # Written forms of documents

An outline says what a document shows: nested sequences are one list, and where a text came from
is forgotten. It is written on one line or spread over several. The structural form keeps every
node of the document apart.
-/

namespace SourceLayout

inductive Outline where
  | quoted (content : Text)
  | number (n : Int)
  | list (items : List Outline)
  | named (name : String) (parts : List Outline)
  deriving Repr, Inhabited

namespace Outline

mutual

def compactOnto (rest : Text) : Outline → Text
  | .quoted content => content.quote ++ rest
  | .number n => Text.ofInt n ++ rest
  | .list items => '[' :: compactAllOnto (']' :: rest) items
  | .named name [] => name.toList ++ rest
  | .named name (part :: parts) =>
    name.toList ++ '(' :: compactAllOnto (')' :: rest) (part :: parts)

def compactAllOnto (rest : Text) : List Outline → Text
  | [] => rest
  | [item] => compactOnto rest item
  | item :: next :: items => compactOnto (',' :: ' ' :: compactAllOnto rest (next :: items)) item

end

def compact (o : Outline) : Text := compactOnto [] o

def indentOnto (rest : Text) : (columns : Nat) → Text
  | 0 => rest
  | columns + 1 => indentOnto (' ' :: rest) columns

mutual

/-- The written form with each part on a line of its own, four columns deeper than its whole,
followed by `rest`. -/
def spreadOnto (level : Nat) (rest : Text) : Outline → Text
  | .quoted content => content.quote ++ rest
  | .number n => Text.ofInt n ++ rest
  | .list [] => '[' :: ']' :: rest
  | .list (item :: items) =>
    '[' :: '\n' :: spreadAllOnto (level + 1) (indentOnto (']' :: rest) (4 * level)) (item :: items)
  | .named name [] => name.toList ++ rest
  | .named name (part :: parts) =>
    name.toList ++ '(' :: '\n' ::
      spreadAllOnto (level + 1) (indentOnto (')' :: rest) (4 * level)) (part :: parts)

def spreadAllOnto (level : Nat) (rest : Text) : List Outline → Text
  | [] => rest
  | item :: items =>
    indentOnto (spreadOnto level (',' :: '\n' :: spreadAllOnto level rest items) item) (4 * level)

end

def spread (o : Outline) : Text := spreadOnto 0 [] o

def gather : List Outline → Outline
  | [item] => item
  | items => .list items

end Outline

namespace LineKind

def name : LineKind → String
  | .normal => "Line"
  | .soft => "SoftLine"
  | .hard => "Hardline"
  | .literal => "LiteralLine"

def keyword : LineKind → String
  | .normal => "line"
  | .soft => "softline"
  | .hard => "hardline"
  | .literal => "literalline"

end LineKind

def Shift.outline : Shift → Outline
  | .columns n => .named "Width" [.number n]
  | .toRoot => .named "DedentToRoot" []

namespace Doc

open Outline (gather)

mutual

/-- The items that a document contributes to the sequence it stands in, followed by `rest`. -/
def itemsOnto (s : Store) (rest : List Outline) : Doc → List Outline
  | .nil _ => .named "Nil" [] :: rest
  | .append _ left right => itemsOnto s (itemsOnto s rest right) left
  | .group l body =>
    .named (if s.isBroken l then "BrokenGroup" else "Group") [gather (itemsOnto s [] body)] :: rest
  | .fill _ parts => .named "Fill" [.list (outlines s parts)] :: rest
  | .indent _ body => .named "Indent" [gather (itemsOnto s [] body)] :: rest
  | .align _ shift body => .named "Align" [shift.outline, gather (itemsOnto s [] body)] :: rest
  | .line _ kind => .named kind.name [] :: rest
  | .breakParent _ => .named "BreakParent" [] :: rest
  | .suffix _ body => .named "LineSuffix" [gather (itemsOnto s [] body)] :: rest
  | .cursor _ => .named "Cursor" [] :: rest
  | .measured _ _ body => gather (itemsOnto s [] body) :: rest
  | .text _ _ content => .quoted content :: rest

def outlines (s : Store) : List Doc → List Outline
  | [] => []
  | part :: parts => gather (itemsOnto s [] part) :: outlines s parts

end

def items (s : Store) (doc : Doc) : List Outline := itemsOnto s [] doc

theorem itemsOnto_eq (s : Store) (rest : List Outline) (doc : Doc) :
    itemsOnto s rest doc = doc.items s ++ rest := by
  cases doc with
  | append l left right =>
    rw [items, itemsOnto, itemsOnto, itemsOnto_eq s _ left, itemsOnto_eq s rest right,
      itemsOnto_eq s (itemsOnto s [] right) left, items, items, List.append_assoc]
  | _ => simp [items, itemsOnto]

theorem items_append (s : Store) (l : Label) (left right : Doc) :
    (Doc.append l left right).items s = left.items s ++ right.items s := by
  rw [items, itemsOnto, itemsOnto_eq]
  rfl

def outline (s : Store) (doc : Doc) : Outline := gather (doc.items s)

def compact (s : Store) (doc : Doc) : Text := (doc.outline s).compact

def spread (s : Store) (doc : Doc) : Text := (doc.outline s).spread

def opening (keyword : String) (rest : Text) : Text := '(' :: keyword.toList ++ ' ' :: rest

mutual

def structuralOnto (s : Store) (rest : Text) : Doc → Text
  | .nil _ => "nil".toList ++ rest
  | .append _ left right =>
    opening "append" (structuralOnto s (' ' :: structuralOnto s (')' :: rest) right) left)
  | .group l body =>
    opening (if s.isBroken l then "broken" else "group") (structuralOnto s (')' :: rest) body)
  | .fill _ parts => '(' :: "fill".toList ++ structuralsOnto s (')' :: rest) parts
  | .indent _ body => opening "indent" (structuralOnto s (')' :: rest) body)
  | .align _ (.columns n) body =>
    opening "align" (Text.ofInt n ++ ' ' :: structuralOnto s (')' :: rest) body)
  | .align _ .toRoot body => opening "root" (structuralOnto s (')' :: rest) body)
  | .line _ kind => kind.keyword.toList ++ rest
  | .breakParent _ => "break_parent".toList ++ rest
  | .suffix _ body => opening "suffix" (structuralOnto s (')' :: rest) body)
  | .cursor _ => "cursor".toList ++ rest
  | .measured _ width body =>
    opening "width" (Text.ofNat width ++ ' ' :: structuralOnto s (')' :: rest) body)
  | .text _ .owned content => opening "owned" (content.quote ++ ')' :: rest)
  | .text _ .fixed content => opening "static" (content.quote ++ ')' :: rest)

def structuralsOnto (s : Store) (rest : Text) : List Doc → Text
  | [] => rest
  | part :: parts => ' ' :: structuralOnto s (structuralsOnto s rest parts) part

end

def structural (s : Store) (doc : Doc) : Text := structuralOnto s [] doc

end Doc

end SourceLayout
