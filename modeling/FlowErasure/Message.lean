/-!
# Messages

Every way in which a source can be refused, with its code and its text. A text may hold numbered
places, written as a number in braces, which `Message.fill` replaces by arguments.
-/

namespace FlowErasure

/-- Reason for refusing a source. -/
inductive Message where
  | unterminatedString | identifierExpected | tokenExpected | commentNotTerminated
  | unexpectedToken | restParameterMustBeLast | digitExpected | hexadecimalDigitExpected
  | unexpectedEndOfText | invalidCharacter | declarationOrStatementExpected | expressionExpected
  | typeExpected | propertyAssignmentExpected | unterminatedTemplate | unterminatedRegex
  | invalidAssignmentTarget | lineBreakNotPermitted | nestingDepthExceeded
  | propertyInitializerUnsupported | typeCastUnsupported | typeImportUnsupported
  | typeDeclarationNotAllowedHere
  deriving DecidableEq, Repr, Inhabited

namespace Message

/-- All messages, in the order in which they are listed. -/
def all : List Message :=
  [.unterminatedString, .identifierExpected, .tokenExpected, .commentNotTerminated,
   .unexpectedToken, .restParameterMustBeLast, .digitExpected, .hexadecimalDigitExpected,
   .unexpectedEndOfText, .invalidCharacter, .declarationOrStatementExpected, .expressionExpected,
   .typeExpected, .propertyAssignmentExpected, .unterminatedTemplate, .unterminatedRegex,
   .invalidAssignmentTarget, .lineBreakNotPermitted, .nestingDepthExceeded,
   .propertyInitializerUnsupported, .typeCastUnsupported, .typeImportUnsupported,
   .typeDeclarationNotAllowedHere]

def code : Message → Nat
  | .unterminatedString => 1002
  | .identifierExpected => 1003
  | .tokenExpected => 1005
  | .commentNotTerminated => 1010
  | .unexpectedToken => 1012
  | .restParameterMustBeLast => 1014
  | .digitExpected => 1124
  | .hexadecimalDigitExpected => 1125
  | .unexpectedEndOfText => 1126
  | .invalidCharacter => 1127
  | .declarationOrStatementExpected => 1128
  | .expressionExpected => 1109
  | .typeExpected => 1110
  | .propertyAssignmentExpected => 1136
  | .unterminatedTemplate => 1160
  | .unterminatedRegex => 1161
  | .invalidAssignmentTarget => 2364
  | .lineBreakNotPermitted => 1142
  | .nestingDepthExceeded => 9001
  | .propertyInitializerUnsupported => 9002
  | .typeCastUnsupported => 9003
  | .typeImportUnsupported => 9004
  | .typeDeclarationNotAllowedHere => 9005

def template : Message → String
  | .unterminatedString => "Unterminated string literal."
  | .identifierExpected => "Identifier expected."
  | .tokenExpected => "'\x7b0\x7d' expected."
  | .commentNotTerminated => "'*/' expected."
  | .unexpectedToken => "Unexpected token."
  | .restParameterMustBeLast => "A rest parameter must be last in a parameter list."
  | .digitExpected => "Digit expected."
  | .hexadecimalDigitExpected => "Hexadecimal digit expected."
  | .unexpectedEndOfText => "Unexpected end of text."
  | .invalidCharacter => "Invalid character."
  | .declarationOrStatementExpected => "Declaration or statement expected."
  | .expressionExpected => "Expression expected."
  | .typeExpected => "Type expected."
  | .propertyAssignmentExpected => "Property assignment expected."
  | .unterminatedTemplate => "Unterminated template literal."
  | .unterminatedRegex => "Unterminated regular expression literal."
  | .invalidAssignmentTarget =>
    "The left-hand side of an assignment expression must be a variable or a property access."
  | .lineBreakNotPermitted => "Line break not permitted here."
  | .nestingDepthExceeded => "Maximum nesting depth of \x7b0\x7d exceeded."
  | .propertyInitializerUnsupported =>
    "Class property initializers are not supported; declare the property with a type annotation only."
  | .typeCastUnsupported => "Type cast expressions are not supported."
  | .typeImportUnsupported => "'import type' declarations are not supported."
  | .typeDeclarationNotAllowedHere =>
    "Type declarations are only allowed directly inside a block or program body."

def ofCode? (code : Nat) : Option Message :=
  all.find? (·.code == code)

private def replaceFrom (pattern replacement : List Char) : Nat → List Char → List Char
  | _, [] => []
  | skip + 1, _ :: cs => replaceFrom pattern replacement skip cs
  | 0, c :: cs =>
    if pattern.isPrefixOf (c :: cs) then
      replacement ++ replaceFrom pattern replacement (pattern.length - 1) cs
    else c :: replaceFrom pattern replacement 0 cs

/-- Replaces every occurrence of a nonempty pattern, from left to right, without overlaps. -/
def replaceAll (pattern replacement cs : List Char) : List Char :=
  replaceFrom pattern replacement 0 cs

private def fillFrom : Nat → List String → List Char → List Char
  | _, [], cs => cs
  | i, argument :: arguments, cs =>
    let place := '\x7b' :: (toString i).toList ++ ['\x7d']
    fillFrom (i + 1) arguments (replaceAll place argument.toList cs)

/-- Puts the arguments in the numbered places of a text, one argument after the other. -/
def fill (text : String) (arguments : List String) : String :=
  String.ofList (fillFrom 0 arguments text.toList)

end Message

end FlowErasure
