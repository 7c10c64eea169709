import SourceLayout.Span
import SourceLayout.Text.Quoted

/-! # Failures of a pass -/

namespace SourceLayout

inductive Failure
  | overlap (comment node : Span) (kind : String)
  | unprinted (content : Text) (span : Span)
  | unknownLanguage (name : Text)
  | unparsed (language reason : Text)
  | refused (message : Text)
  | unbounded
  deriving DecidableEq, Repr

def Failure.message : Failure → Text
  | .overlap comment node kind =>
    "comment at ".toList ++ comment.render ++ " overlaps ".toList ++ kind.toList ++
      " node at ".toList ++ node.render
  | .unprinted content span =>
    "comment ".toList ++ content.quote ++ " at ".toList ++ span.render ++ " was not printed".toList
  | .unknownLanguage name =>
    "no language named ".toList ++ name.quote ++ " is registered".toList
  | .unparsed language _ => "failed to parse ".toList ++ language ++ " source".toList
  | .refused message => message
  | .unbounded => "nested too deep".toList

end SourceLayout
