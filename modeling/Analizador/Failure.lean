import Analizador.Text.Quoted

/-! # Failures

The causes that stop an operation half-way, and their wording. A failure is not a finding about the
program under analysis: those are diagnostics. -/

namespace Analizador

/-- Why an operation stopped. Kinds of values are given by their printed names. -/
inductive Failure where
  /-- A value of kind `owner` has no attribute of that name. -/
  | noAttribute (owner name : String)
  /-- A value of kind `owner` cannot be walked item by item. -/
  | notIterable (owner : String)
  /-- A value of kind `owner` has no length. -/
  | noLength (owner : String)
  /-- A value of kind `owner` cannot be called. -/
  | notCallable (owner : String)
  /-- A value of kind `owner` cannot be a key. -/
  | unhashable (owner : String)
  /-- A value of kind `owner` stands where a text is needed. -/
  | notText (owner : String)
  /-- A value of kind `owner` cannot be searched for an item. -/
  | notSearchable (owner : String)
  /-- A value of kind `owner` cannot be searched for in a text. -/
  | needsText (owner : String)
  /-- An operator is not defined on these kinds. -/
  | unsupported (operator left right : String)
  /-- A sequence of kind `left` cannot be joined with a value of kind `right`. -/
  | concatenation (left right : String)
  /-- A sequence cannot be repeated by a value of this kind. -/
  | repetition (count : String)
  /-- The count of a repetition does not fit in 64 bits. -/
  | repetitionCount
  /-- A repeated text would have more characters than can be counted. -/
  | repetitionLength
  /-- A repeated text would not fit in memory. -/
  | outOfMemory
  /-- Values of these kinds have no order. -/
  | unordered (operator left right : String)
  /-- An integer is out of the range of doubles. -/
  | integerTooLarge
  /-- The quotient of two integers is out of the range of doubles. -/
  | quotientTooLarge
  /-- An infinity is no integer. -/
  | infiniteInteger
  /-- The undefined number is no integer. -/
  | undefinedInteger
  /-- An integer has too many digits to be written. -/
  | longInteger
  /-- A numeral has too many digits to be read. -/
  | longNumeral (digits : Nat)
  /-- A text is no integer. -/
  | badInteger (text : String)
  /-- A text is no decimal. -/
  | badDecimal (text : String)
  /-- A number cannot be read from a value of this kind. -/
  | notNumeric (reader owner : String)
  /-- A value of this kind cannot be cut. -/
  | notSliceable (owner : String)
  /-- A building rule lacks arguments. -/
  | missingArguments (rule : String) (names : List String)
  /-- A building rule has more arguments than it takes; the counts include the builder itself. -/
  | extraArguments (rule : String) (least most given : Nat)
  /-- An argument of the table's update is given twice. -/
  | repeatedArgument (name : String)
  /-- A value of kind `owner` stands where a class is needed. -/
  | notClass (owner : String)
  /-- A value of kind `owner` stands where the attributes of an object are needed. -/
  | notAttributes (owner : String)
  /-- An attribute of values of kind `owner` cannot be changed. -/
  | fixedAttribute (owner name : String)
  /-- A building rule failed on a tree. -/
  | ruleFailed (rule : String) (reason : String)
  /-- No such building rule. -/
  | unknownRule (rule : String)
  /-- A name is not defined. -/
  | unknownName (name : String)
  /-- The reader of programs takes no ready token list. -/
  | tokensGiven
  /-- The nesting is deeper than the walk allows. -/
  | tooDeep
  deriving DecidableEq, Repr, Inhabited

namespace Failure

/-- Joins quoted names: `'a'`, `'a' and 'b'`, `'a', 'b', and 'c'`. -/
def nameList (names : List String) : String :=
  match names.map Text.quoted with
  | [] => ""
  | [a] => a
  | [a, b] => a ++ " and " ++ b
  | quoted => ", ".intercalate quoted.dropLast ++ ", and " ++ quoted.getLastD ""

/-- The count of arguments in words. -/
def argumentWord (n : Nat) : String := if n = 1 then "argument" else "arguments"

/-- The wording of a failure. -/
def message : Failure → String
  | noAttribute owner name => s!"'{owner}' object has no attribute '{name}'"
  | notIterable owner => s!"'{owner}' object is not iterable"
  | noLength owner => s!"object of type '{owner}' has no len()"
  | notCallable owner => s!"'{owner}' object is not callable"
  | unhashable owner => s!"unhashable type: '{owner}'"
  | notText owner => s!"expected string or bytes-like object, got '{owner}'"
  | notSearchable owner => s!"argument of type '{owner}' is not iterable"
  | needsText owner => s!"'in <string>' requires string as left operand, not {owner}"
  | unsupported operator left right =>
    s!"unsupported operand type(s) for {operator}: '{left}' and '{right}'"
  | concatenation left right => s!"can only concatenate {left} (not \"{right}\") to {left}"
  | repetition count => s!"can't multiply sequence by non-int of type '{count}'"
  | repetitionCount => "cannot fit 'int' into an index-sized integer"
  | repetitionLength => "repeated string is too long"
  | outOfMemory => ""
  | unordered operator left right =>
    s!"'{operator}' not supported between instances of '{left}' and '{right}'"
  | integerTooLarge => "int too large to convert to float"
  | quotientTooLarge => "integer division result too large for a float"
  | infiniteInteger => "cannot convert float infinity to integer"
  | undefinedInteger => "cannot convert float NaN to integer"
  | longInteger =>
    "Exceeds the limit (4300 digits) for integer string conversion; " ++
      "use sys.set_int_max_str_digits() to increase the limit"
  | longNumeral digits =>
    s!"Exceeds the limit (4300 digits) for integer string conversion: value has {digits} digits; "
      ++ "use sys.set_int_max_str_digits() to increase the limit"
  | badInteger text => s!"invalid literal for int() with base 10: {Text.quoted text}"
  | badDecimal text => s!"could not convert string to float: {Text.quoted text}"
  | notNumeric reader owner =>
    if reader = "int" then
      s!"int() argument must be a string, a bytes-like object or a real number, not '{owner}'"
    else s!"float() argument must be a string or a real number, not '{owner}'"
  | notSliceable owner => s!"'{owner}' object is not subscriptable"
  | missingArguments rule names =>
    s!"ASTBuilder.{rule}() missing {names.length} required positional {argumentWord names.length}: "
      ++ nameList names
  | extraArguments rule least most given =>
    let takes := if least = most then s!"{most} positional {argumentWord most}"
      else s!"from {least} to {most} positional arguments"
    s!"ASTBuilder.{rule}() takes {takes} but {given} were given"
  | repeatedArgument name => s!"SymbolTable.update() got multiple values for argument '{name}'"
  | notClass owner => s!"__class__ must be set to a class, not '{owner}' object"
  | notAttributes owner => s!"__dict__ must be set to a dictionary, not a '{owner}'"
  | fixedAttribute owner name => s!"attribute '{name}' of '{owner}' objects is not writable"
  | ruleFailed rule reason => s!"Error trying to process rule \"{rule}\":\n\n{reason}"
  | unknownRule rule => s!"'ASTBuilder' object has no attribute '{rule}'"
  | unknownName name => s!"name '{name}' is not defined"
  | tokensGiven => "Lark.parse() got an unexpected keyword argument 'tokens'"
  | tooDeep => "maximum recursion depth exceeded"

end Failure

end Analizador
