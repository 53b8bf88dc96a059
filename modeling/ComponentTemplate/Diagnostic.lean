import ComponentTemplate.Source.Position

/-!
# Diagnostics

Reading a component fails for one of the causes listed here, at a region of the source. The
wording of every cause is fixed in one place, and the region is shown to the reader as lines
and columns.
-/

namespace ComponentTemplate

inductive Expected where
  | literal (text : String)
  | identifier
  | string
  | expression
  | propertyName
  | endOfExpression
  deriving DecidableEq, Repr

def Expected.message : Expected → String
  | .literal text => "Expected `" ++ text ++ "`"
  | .identifier => "Expected an identifier"
  | .string => "Expected a string"
  | .expression => "Expected an expression"
  | .propertyName => "Expected a property name"
  | .endOfExpression => "Unexpected token after expression"

/-- **Why reading failed.** -/
inductive Cause where
  | unterminatedString
  | unexpectedCharacter (c : Char)
  /-- A token (or, for `none`, the end of the input) that is not the expected one. -/
  | unexpectedToken (expected : Expected) (found : Option String)
  | invalidAssignmentTarget
  | callExpected
  | assignmentExpected
  | unknownInlineTag (keyword : String)
  | unexpectedBlockTag (keyword : String)
  | nestedImport
  | unterminatedComment
  | unexpectedClosingTag
  | missingClosingTag (name : String)
  | missingBlockEnd (keyword : String)
  | mismatchedClosingTag (name : String)
  | unknownSpecialElement (name : String)
  | unterminatedTag (name : String)
  | repeatedScript
  | repeatedStyle
  | attributeNameExpected
  | attributeValueExpected
  | unterminatedAttributeValue
  | shorthandExpected
  | directiveValueExpected
  | unclosedStyleBlock
  | unexpectedStyleBrace
  | unterminatedStyleString
  | declarationColonExpected
  deriving DecidableEq, Repr

/-- **The wording of a cause.** -/
def Cause.message : Cause → String
  | .unterminatedString => "Unterminated string literal"
  | .unexpectedCharacter c => "Unexpected character `" ++ String.singleton c ++ "`"
  | .unexpectedToken expected none => expected.message ++ ", found end of input"
  | .unexpectedToken expected (some text) => expected.message ++ ", found `" ++ text ++ "`"
  | .invalidAssignmentTarget => "Invalid assignment target"
  | .callExpected => "Expected a call expression"
  | .assignmentExpected => "Expected an assignment"
  | .unknownInlineTag keyword => "Unknown tag `@" ++ keyword ++ "`"
  | .unexpectedBlockTag keyword => "Unexpected tag `" ++ keyword ++ "`"
  | .nestedImport => "Imports are only allowed at the top level"
  | .unterminatedComment => "Unterminated comment"
  | .unexpectedClosingTag => "Unexpected closing tag"
  | .missingClosingTag name => "Expected `</" ++ name ++ ">`, found end of input"
  | .missingBlockEnd keyword => "Expected `\x7b% " ++ keyword ++ " %\x7d`, found end of input"
  | .mismatchedClosingTag name => "Expected `</" ++ name ++ ">`"
  | .unknownSpecialElement name => "Unknown special element `<" ++ name ++ ">`"
  | .unterminatedTag name => "Unterminated `<" ++ name ++ ">` tag"
  | .repeatedScript =>
    "A component can only have one top-level <script lang=\"zs\"> element"
  | .repeatedStyle => "A component can only have one top-level <style> element"
  | .attributeNameExpected => "Expected an attribute name"
  | .attributeValueExpected => "Expected an attribute value"
  | .unterminatedAttributeValue => "Unterminated attribute value"
  | .shorthandExpected => "Expected an identifier or a spread"
  | .directiveValueExpected => "Directive value must be a single expression tag"
  | .unclosedStyleBlock => "Expected `\x7d`, found end of style"
  | .unexpectedStyleBrace => "Unexpected `\x7d`"
  | .unterminatedStyleString => "Unterminated string"
  | .declarationColonExpected => "Expected `:` in declaration"

/-- **Why and where reading fails.** -/
structure Failure where
  cause : Cause
  span : Span
  deriving DecidableEq, Repr

/-- **A failure for a reader**: its wording and the lines and columns it concerns. -/
structure Diagnostic where
  text : String
  range : Range
  deriving DecidableEq, Repr

def Diagnostic.ofSpan (source : List Char) (span : Span) (text : String) : Diagnostic :=
  ⟨text, Range.ofSpan source span⟩

/-- The wording followed by the place where the range starts, with lines and columns counted
from one. -/
def Diagnostic.message (d : Diagnostic) : String :=
  d.text ++ " (" ++ toString (d.range.start.line + 1) ++ ":" ++
    toString (d.range.start.column + 1) ++ ")"

def Failure.toDiagnostic (source : List Char) (failure : Failure) : Diagnostic :=
  .ofSpan source failure.span failure.cause.message

end ComponentTemplate
