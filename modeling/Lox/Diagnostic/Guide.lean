import Lox.Diagnostic.Code

/-!
The explanation of each error code, with an example and its remedy.
-/

namespace Lox

private def page (lines : List String) : String := String.join (lines.map (· ++ "\n"))

def Code.guide : Code → String
  | .unterminatedString => page [
      "# E0001: Unterminated String",
      "",
      "A string literal was opened with `\"` but the file ended before the closing quote.",
      "Strings may span lines, so the error is reported at the end of the input.",
      "",
      "## Example",
      "",
      "```lox",
      "print \"hello;",
      "```",
      "",
      "## Solution",
      "",
      "Add the closing quote:",
      "",
      "```lox",
      "print \"hello\";",
      "```"]
  | .unexpectedCharacter => page [
      "# E0002: Unexpected Character",
      "",
      "The lexer found a character that does not start any token.",
      "Scanning continues with the next character, so several of these may be reported.",
      "",
      "## Example",
      "",
      "```lox",
      "var a = 1 @ 2;",
      "```",
      "",
      "## Solution",
      "",
      "Remove the character or replace it with an operator:",
      "",
      "```lox",
      "var a = 1 + 2;",
      "```"]
  | .unterminatedComment => page [
      "# E0003: Unterminated Block Comment",
      "",
      "A `/*` comment was never closed. Block comments do not nest: the first `*/`",
      "closes the comment.",
      "",
      "## Example",
      "",
      "```lox",
      "/* start",
      "print 1;",
      "```",
      "",
      "## Solution",
      "",
      "Close the comment:",
      "",
      "```lox",
      "/* start */",
      "print 1;",
      "```"]
  | .expectedToken => page [
      "# E1001: Expected Token",
      "",
      "The parser needed a specific token, such as `;` after a statement or `)`",
      "after arguments, and found something else.",
      "",
      "## Example",
      "",
      "```lox",
      "print 1",
      "```",
      "",
      "## Solution",
      "",
      "Add the missing token:",
      "",
      "```lox",
      "print 1;",
      "```"]
  | .expectedExpression => page [
      "# E1002: Expected Expression",
      "",
      "An expression was required here, but the next token cannot start one.",
      "",
      "## Example",
      "",
      "```lox",
      "var a = ;",
      "```",
      "",
      "## Solution",
      "",
      "Supply a value:",
      "",
      "```lox",
      "var a = nil;",
      "```"]
  | .invalidTarget => page [
      "# E1003: Invalid Assignment Target",
      "",
      "Only a plain variable can appear on the left of `=`.",
      "The right-hand side is still parsed so later errors are reported.",
      "",
      "## Example",
      "",
      "```lox",
      "1 + 2 = 3;",
      "```",
      "",
      "## Solution",
      "",
      "Assign to a variable:",
      "",
      "```lox",
      "var sum = 1 + 2;",
      "```"]
  | .expectedIdentifier => page [
      "# E1004: Expected Identifier",
      "",
      "A variable, function or parameter name was expected.",
      "",
      "## Example",
      "",
      "```lox",
      "var 1 = 2;",
      "```",
      "",
      "## Solution",
      "",
      "Use a name that starts with a letter or `_`:",
      "",
      "```lox",
      "var one = 2;",
      "```"]
  | .tooManyEntries => page [
      "# E1005: Too Many Arguments",
      "",
      "Calls and function declarations accept at most 255 arguments or parameters.",
      "",
      "## Example",
      "",
      "```lox",
      "f(a1, a2, /* ... */ a256);",
      "```",
      "",
      "## Solution",
      "",
      "Group related values or split the function."]
  | .typeError => page [
      "# E6001: Type Error",
      "",
      "An operator was applied to values of the wrong kind. Arithmetic and comparison",
      "need numbers; `+` needs two numbers or two strings. There is no implicit conversion.",
      "",
      "## Example",
      "",
      "```lox",
      "print \"a\" + 1;",
      "```",
      "",
      "## Solution",
      "",
      "Make both operands the same kind:",
      "",
      "```lox",
      "print \"a\" + \"1\";",
      "```"]
  | .divisionByZero => page [
      "# E6002: Division by Zero",
      "",
      "The divisor of `/` evaluated to zero.",
      "",
      "## Example",
      "",
      "```lox",
      "print 1 / 0;",
      "```",
      "",
      "## Solution",
      "",
      "Check the divisor first:",
      "",
      "```lox",
      "if (d != 0) print n / d;",
      "```"]
  | .undefinedVariable => page [
      "# E6003: Undefined Variable",
      "",
      "The name is not bound in any enclosing scope. Assignment does not create",
      "variables; use `var` first.",
      "",
      "## Example",
      "",
      "```lox",
      "x = 1;",
      "```",
      "",
      "## Solution",
      "",
      "Declare the variable:",
      "",
      "```lox",
      "var x;",
      "x = 1;",
      "```"]
  | .uninitializedVariable => page [
      "# E6004: Uninitialized Variable",
      "",
      "A variable declared without an initializer was read before any value was",
      "assigned to it.",
      "",
      "## Example",
      "",
      "```lox",
      "var a;",
      "print a;",
      "```",
      "",
      "## Solution",
      "",
      "Assign before reading:",
      "",
      "```lox",
      "var a;",
      "a = 1;",
      "print a;",
      "```"]
  | .notCallable => page [
      "# E6005: Not Callable",
      "",
      "Only functions can be called. The callee evaluated to a number, string,",
      "boolean or `nil`.",
      "",
      "## Example",
      "",
      "```lox",
      "\"text\"();",
      "```",
      "",
      "## Solution",
      "",
      "Call a function value instead."]
  | .arityMismatch => page [
      "# E6006: Arity Mismatch",
      "",
      "A function was called with a different number of arguments than it declares.",
      "",
      "## Example",
      "",
      "```lox",
      "fun f(a) \x7b\x7d",
      "f(1, 2);",
      "```",
      "",
      "## Solution",
      "",
      "Pass exactly one argument per parameter:",
      "",
      "```lox",
      "f(1);",
      "```"]
  | .outsideLoop => page [
      "# E6007: Control Flow Outside Loop",
      "",
      "`break` or `continue` ran outside any enclosing `while` or `for` loop,",
      "including inside a function called from a loop.",
      "",
      "## Example",
      "",
      "```lox",
      "fun f() \x7b break; \x7d",
      "while (true) f();",
      "```",
      "",
      "## Solution",
      "",
      "Move the statement into the loop body."]
  | .outsideFunction => page [
      "# E6008: Return Outside Function",
      "",
      "`return` ran at the top level of a script.",
      "",
      "## Example",
      "",
      "```lox",
      "return 1;",
      "```",
      "",
      "## Solution",
      "",
      "Only use `return` inside a function body."]
  | .stackOverflow => page [
      "# E6009: Maximum Recursion Depth Exceeded",
      "",
      "The call depth passed the configured limit (`--max-call-depth`).",
      "",
      "## Example",
      "",
      "```lox",
      "fun f() \x7b f(); \x7d",
      "f();",
      "```",
      "",
      "## Solution",
      "",
      "Add a base case to the recursion."]

end Lox
