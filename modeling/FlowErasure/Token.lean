/-!
# Tokens

The kinds of token of the language: literals and names, punctuation, reserved words and contextual
keywords. A reserved word never names anything; a contextual keyword is an ordinary name outside
its special position.
-/

namespace FlowErasure

/-- Kind of a token. -/
inductive Token where
  | unknown | endOfFile | number | string | regex | template | templateHead | templateMiddle
  | templateTail | identifier
  | openBrace | closeBrace | openParen | closeParen | openBracket | closeBracket | dot
  | ellipsis | semicolon | comma | lessThan | greaterThan | lessThanEquals | greaterThanEquals
  | equalsEquals | exclamationEquals | equalsEqualsEquals | exclamationEqualsEquals | arrow
  | plus | minus | asterisk | asteriskAsterisk | slash | percent | plusPlus | minusMinus
  | shiftLeft | shiftRight | shiftRightUnsigned | ampersand | bar | caret | exclamation | tilde
  | ampersandAmpersand | barBar | question | colon | equals | plusEquals | minusEquals
  | asteriskEquals | asteriskAsteriskEquals | slashEquals | percentEquals | shiftLeftEquals
  | shiftRightEquals | shiftRightUnsignedEquals | ampersandEquals | barEquals | caretEquals
  | breakKeyword | caseKeyword | catchKeyword | classKeyword | constKeyword | continueKeyword
  | debuggerKeyword | defaultKeyword | deleteKeyword | doKeyword | elseKeyword | enumKeyword
  | exportKeyword | extendsKeyword | falseKeyword | finallyKeyword | forKeyword
  | functionKeyword | ifKeyword | importKeyword | inKeyword | instanceOfKeyword | newKeyword
  | nullKeyword | returnKeyword | superKeyword | switchKeyword | thisKeyword | throwKeyword
  | trueKeyword | tryKeyword | typeOfKeyword | varKeyword | voidKeyword | whileKeyword
  | withKeyword
  | asKeyword | asyncKeyword | awaitKeyword | declareKeyword | fromKeyword | getKeyword
  | implementsKeyword | interfaceKeyword | letKeyword | moduleKeyword | ofKeyword | setKeyword
  | staticKeyword | typeKeyword | yieldKeyword
  deriving DecidableEq, Repr, Inhabited

namespace Token

/-- Words that never serve as names. -/
def reservedWords : List Token :=
  [.breakKeyword, .caseKeyword, .catchKeyword, .classKeyword, .constKeyword, .continueKeyword,
   .debuggerKeyword, .defaultKeyword, .deleteKeyword, .doKeyword, .elseKeyword, .enumKeyword,
   .exportKeyword, .extendsKeyword, .falseKeyword, .finallyKeyword, .forKeyword, .functionKeyword,
   .ifKeyword, .importKeyword, .inKeyword, .instanceOfKeyword, .newKeyword, .nullKeyword,
   .returnKeyword, .superKeyword, .switchKeyword, .thisKeyword, .throwKeyword, .trueKeyword,
   .tryKeyword, .typeOfKeyword, .varKeyword, .voidKeyword, .whileKeyword, .withKeyword]

/-- Words with a meaning of their own in some positions and names elsewhere. -/
def contextualKeywords : List Token :=
  [.asKeyword, .asyncKeyword, .awaitKeyword, .declareKeyword, .fromKeyword, .getKeyword,
   .implementsKeyword, .interfaceKeyword, .letKeyword, .moduleKeyword, .ofKeyword, .setKeyword,
   .staticKeyword, .typeKeyword, .yieldKeyword]

/-- Text of a punctuation or keyword token. -/
def spelling? : Token → Option String
  | .openBrace => some "\x7b"
  | .closeBrace => some "\x7d"
  | .openParen => some "("
  | .closeParen => some ")"
  | .openBracket => some "["
  | .closeBracket => some "]"
  | .dot => some "."
  | .ellipsis => some "..."
  | .semicolon => some ";"
  | .comma => some ","
  | .lessThan => some "<"
  | .greaterThan => some ">"
  | .lessThanEquals => some "<="
  | .greaterThanEquals => some ">="
  | .equalsEquals => some "=="
  | .exclamationEquals => some "!="
  | .equalsEqualsEquals => some "==="
  | .exclamationEqualsEquals => some "!=="
  | .arrow => some "=>"
  | .plus => some "+"
  | .minus => some "-"
  | .asterisk => some "*"
  | .asteriskAsterisk => some "**"
  | .slash => some "/"
  | .percent => some "%"
  | .plusPlus => some "++"
  | .minusMinus => some "--"
  | .shiftLeft => some "<<"
  | .shiftRight => some ">>"
  | .shiftRightUnsigned => some ">>>"
  | .ampersand => some "&"
  | .bar => some "|"
  | .caret => some "^"
  | .exclamation => some "!"
  | .tilde => some "~"
  | .ampersandAmpersand => some "&&"
  | .barBar => some "||"
  | .question => some "?"
  | .colon => some ":"
  | .equals => some "="
  | .plusEquals => some "+="
  | .minusEquals => some "-="
  | .asteriskEquals => some "*="
  | .asteriskAsteriskEquals => some "**="
  | .slashEquals => some "/="
  | .percentEquals => some "%="
  | .shiftLeftEquals => some "<<="
  | .shiftRightEquals => some ">>="
  | .shiftRightUnsignedEquals => some ">>>="
  | .ampersandEquals => some "&="
  | .barEquals => some "|="
  | .caretEquals => some "^="
  | .breakKeyword => some "break"
  | .caseKeyword => some "case"
  | .catchKeyword => some "catch"
  | .classKeyword => some "class"
  | .constKeyword => some "const"
  | .continueKeyword => some "continue"
  | .debuggerKeyword => some "debugger"
  | .defaultKeyword => some "default"
  | .deleteKeyword => some "delete"
  | .doKeyword => some "do"
  | .elseKeyword => some "else"
  | .enumKeyword => some "enum"
  | .exportKeyword => some "export"
  | .extendsKeyword => some "extends"
  | .falseKeyword => some "false"
  | .finallyKeyword => some "finally"
  | .forKeyword => some "for"
  | .functionKeyword => some "function"
  | .ifKeyword => some "if"
  | .importKeyword => some "import"
  | .inKeyword => some "in"
  | .instanceOfKeyword => some "instanceof"
  | .newKeyword => some "new"
  | .nullKeyword => some "null"
  | .returnKeyword => some "return"
  | .superKeyword => some "super"
  | .switchKeyword => some "switch"
  | .thisKeyword => some "this"
  | .throwKeyword => some "throw"
  | .trueKeyword => some "true"
  | .tryKeyword => some "try"
  | .typeOfKeyword => some "typeof"
  | .varKeyword => some "var"
  | .voidKeyword => some "void"
  | .whileKeyword => some "while"
  | .withKeyword => some "with"
  | .asKeyword => some "as"
  | .asyncKeyword => some "async"
  | .awaitKeyword => some "await"
  | .declareKeyword => some "declare"
  | .fromKeyword => some "from"
  | .getKeyword => some "get"
  | .implementsKeyword => some "implements"
  | .interfaceKeyword => some "interface"
  | .letKeyword => some "let"
  | .moduleKeyword => some "module"
  | .ofKeyword => some "of"
  | .setKeyword => some "set"
  | .staticKeyword => some "static"
  | .typeKeyword => some "type"
  | .yieldKeyword => some "yield"
  | _ => none

/-- Name of the kind, as tree dumps write it. -/
def label : Token → String
  | .unknown => "Unknown"
  | .endOfFile => "EndOfFileToken"
  | .number => "NumericLiteral"
  | .string => "StringLiteral"
  | .regex => "RegularExpressionLiteral"
  | .template => "NoSubstitutionTemplateLiteral"
  | .templateHead => "TemplateHead"
  | .templateMiddle => "TemplateMiddle"
  | .templateTail => "TemplateTail"
  | .identifier => "Identifier"
  | .openBrace => "OpenBraceToken"
  | .closeBrace => "CloseBraceToken"
  | .openParen => "OpenParenToken"
  | .closeParen => "CloseParenToken"
  | .openBracket => "OpenBracketToken"
  | .closeBracket => "CloseBracketToken"
  | .dot => "DotToken"
  | .ellipsis => "DotDotDotToken"
  | .semicolon => "SemicolonToken"
  | .comma => "CommaToken"
  | .lessThan => "LessThanToken"
  | .greaterThan => "GreaterThanToken"
  | .lessThanEquals => "LessThanEqualsToken"
  | .greaterThanEquals => "GreaterThanEqualsToken"
  | .equalsEquals => "EqualsEqualsToken"
  | .exclamationEquals => "ExclamationEqualsToken"
  | .equalsEqualsEquals => "EqualsEqualsEqualsToken"
  | .exclamationEqualsEquals => "ExclamationEqualsEqualsToken"
  | .arrow => "EqualsGreaterThanToken"
  | .plus => "PlusToken"
  | .minus => "MinusToken"
  | .asterisk => "AsteriskToken"
  | .asteriskAsterisk => "AsteriskAsteriskToken"
  | .slash => "SlashToken"
  | .percent => "PercentToken"
  | .plusPlus => "PlusPlusToken"
  | .minusMinus => "MinusMinusToken"
  | .shiftLeft => "LessThanLessThanToken"
  | .shiftRight => "GreaterThanGreaterThanToken"
  | .shiftRightUnsigned => "GreaterThanGreaterThanGreaterThanToken"
  | .ampersand => "AmpersandToken"
  | .bar => "BarToken"
  | .caret => "CaretToken"
  | .exclamation => "ExclamationToken"
  | .tilde => "TildeToken"
  | .ampersandAmpersand => "AmpersandAmpersandToken"
  | .barBar => "BarBarToken"
  | .question => "QuestionToken"
  | .colon => "ColonToken"
  | .equals => "EqualsToken"
  | .plusEquals => "PlusEqualsToken"
  | .minusEquals => "MinusEqualsToken"
  | .asteriskEquals => "AsteriskEqualsToken"
  | .asteriskAsteriskEquals => "AsteriskAsteriskEqualsToken"
  | .slashEquals => "SlashEqualsToken"
  | .percentEquals => "PercentEqualsToken"
  | .shiftLeftEquals => "LessThanLessThanEqualsToken"
  | .shiftRightEquals => "GreaterThanGreaterThanEqualsToken"
  | .shiftRightUnsignedEquals => "GreaterThanGreaterThanGreaterThanEqualsToken"
  | .ampersandEquals => "AmpersandEqualsToken"
  | .barEquals => "BarEqualsToken"
  | .caretEquals => "CaretEqualsToken"
  | .breakKeyword => "BreakKeyword"
  | .caseKeyword => "CaseKeyword"
  | .catchKeyword => "CatchKeyword"
  | .classKeyword => "ClassKeyword"
  | .constKeyword => "ConstKeyword"
  | .continueKeyword => "ContinueKeyword"
  | .debuggerKeyword => "DebuggerKeyword"
  | .defaultKeyword => "DefaultKeyword"
  | .deleteKeyword => "DeleteKeyword"
  | .doKeyword => "DoKeyword"
  | .elseKeyword => "ElseKeyword"
  | .enumKeyword => "EnumKeyword"
  | .exportKeyword => "ExportKeyword"
  | .extendsKeyword => "ExtendsKeyword"
  | .falseKeyword => "FalseKeyword"
  | .finallyKeyword => "FinallyKeyword"
  | .forKeyword => "ForKeyword"
  | .functionKeyword => "FunctionKeyword"
  | .ifKeyword => "IfKeyword"
  | .importKeyword => "ImportKeyword"
  | .inKeyword => "InKeyword"
  | .instanceOfKeyword => "InstanceOfKeyword"
  | .newKeyword => "NewKeyword"
  | .nullKeyword => "NullKeyword"
  | .returnKeyword => "ReturnKeyword"
  | .superKeyword => "SuperKeyword"
  | .switchKeyword => "SwitchKeyword"
  | .thisKeyword => "ThisKeyword"
  | .throwKeyword => "ThrowKeyword"
  | .trueKeyword => "TrueKeyword"
  | .tryKeyword => "TryKeyword"
  | .typeOfKeyword => "TypeOfKeyword"
  | .varKeyword => "VarKeyword"
  | .voidKeyword => "VoidKeyword"
  | .whileKeyword => "WhileKeyword"
  | .withKeyword => "WithKeyword"
  | .asKeyword => "AsKeyword"
  | .asyncKeyword => "AsyncKeyword"
  | .awaitKeyword => "AwaitKeyword"
  | .declareKeyword => "DeclareKeyword"
  | .fromKeyword => "FromKeyword"
  | .getKeyword => "GetKeyword"
  | .implementsKeyword => "ImplementsKeyword"
  | .interfaceKeyword => "InterfaceKeyword"
  | .letKeyword => "LetKeyword"
  | .moduleKeyword => "ModuleKeyword"
  | .ofKeyword => "OfKeyword"
  | .setKeyword => "SetKeyword"
  | .staticKeyword => "StaticKeyword"
  | .typeKeyword => "TypeKeyword"
  | .yieldKeyword => "YieldKeyword"

def isReserved (t : Token) : Bool :=
  reservedWords.contains t

def isContextual (t : Token) : Bool :=
  contextualKeywords.contains t

/-- A token that can be a name: an identifier or a contextual keyword. -/
def isName (t : Token) : Bool :=
  t == .identifier || t.isContextual

/-- A token whose text can be a property name after a dot or in an object key. -/
def isWord (t : Token) : Bool :=
  t == .identifier || t.isReserved || t.isContextual

/-- The keyword with a given text. -/
def keyword? (text : String) : Option Token :=
  (reservedWords ++ contextualKeywords).find? fun t => t.spelling? == some text

def isAssignment : Token → Bool
  | .equals | .plusEquals | .minusEquals | .asteriskEquals | .asteriskAsteriskEquals
  | .slashEquals | .percentEquals | .shiftLeftEquals | .shiftRightEquals
  | .shiftRightUnsignedEquals | .ampersandEquals | .barEquals | .caretEquals => true
  | _ => false

/-- Binding power of a binary operator, 0 for any other token. -/
def precedence : Token → Nat
  | .barBar => 1
  | .ampersandAmpersand => 2
  | .bar => 3
  | .caret => 4
  | .ampersand => 5
  | .equalsEquals | .exclamationEquals | .equalsEqualsEquals | .exclamationEqualsEquals => 6
  | .lessThan | .greaterThan | .lessThanEquals | .greaterThanEquals | .instanceOfKeyword
  | .inKeyword => 7
  | .shiftLeft | .shiftRight | .shiftRightUnsigned => 8
  | .plus | .minus => 9
  | .asterisk | .slash | .percent => 10
  | .asteriskAsterisk => 11
  | _ => 0

def isLogical (t : Token) : Bool :=
  t == .barBar || t == .ampersandAmpersand

/-- Tokens that go on with a template after a substitution. -/
def continuesTemplate (t : Token) : Bool :=
  t == .templateMiddle || t == .templateTail

/-- How error messages call the token. -/
def description (t : Token) : String :=
  match t.spelling? with
  | some text => text
  | none =>
    match t with
    | .endOfFile => "end of file"
    | .identifier => "identifier"
    | .number => "number"
    | .string => "string"
    | .regex => "regular expression"
    | .template | .templateHead | .templateMiddle | .templateTail => "template"
    | _ => "token"

end Token

end FlowErasure
